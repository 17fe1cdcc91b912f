import Mathlib.Data.List.Basic
import Mathlib.Data.List.GetD
import Mathlib.Tactic

/-!
# Placing by counting

The positions of a list of keys are laid out key after key: the keys are counted, the counts are summed up to
where each key's segment begins, and a second pass writes every position at the cursor of its key. The segment
of a key then holds exactly the positions of that key, in order (`segment_place`).
-/

namespace CountingSort

open List

def tally (m : Nat) (keys : List Nat) : List Nat :=
  keys.foldl (fun counts k => counts.modify k (· + 1)) (replicate m 0)

def offsets (counts : List Nat) : List Nat := (range (counts.length + 1)).map fun b => (counts.take b).sum

def placeFrom : List Nat → List Nat → Nat → List Nat → List Nat
  | _, slots, _, [] => slots
  | cursor, slots, i, k :: keys =>
    placeFrom (cursor.modify k (· + 1)) (slots.set (cursor.getD k 0) i) (i + 1) keys

def place (m : Nat) (keys : List Nat) : List Nat :=
  placeFrom (offsets (tally m keys)) (replicate keys.length 0) 0 keys

def segment (offs slots : List Nat) (b : Nat) : List Nat :=
  (slots.drop (offs.getD b 0)).take (offs.getD (b + 1) 0 - offs.getD b 0)

def positions (b : Nat) (keys : List Nat) : List Nat :=
  (range keys.length).filter fun i => decide (keys[i]? = some b)

variable {m : Nat} {keys : List Nat}

theorem mem_positions : i ∈ positions b keys ↔ keys[i]? = some b := by
  rw [positions, mem_filter, mem_range, decide_eq_true_iff, and_iff_right_iff_imp]
  intro h
  exact (List.getElem?_eq_some_iff.mp h).1

theorem positions_snoc : positions b (keys ++ [k]) = positions b keys ++ if k = b then [keys.length] else [] := by
  rw [positions, length_append, length_singleton, range_succ, filter_append]
  congr 1
  · refine filter_congr fun i hi => ?_
    rw [getElem?_append_left (mem_range.mp hi)]
  · by_cases h : k = b <;> simp [h]

theorem tally_snoc : tally m (keys ++ [k]) = (tally m keys).modify k (· + 1) := by
  simp [tally, foldl_append]

@[simp] theorem length_tally : (tally m keys).length = m := by
  induction keys using List.reverseRecOn with
  | nil => simp [tally]
  | append_singleton keys k ih => rw [tally_snoc, length_modify, ih]

theorem tally_getElem? (hb : b < m) : (tally m keys)[b]? = some (keys.count b) := by
  induction keys using List.reverseRecOn with
  | nil => simp [tally, hb]
  | append_singleton keys k ih =>
    rw [tally_snoc, getElem?_modify, ih, count_append]
    by_cases h : k = b <;> simp [h]

theorem countP_lt_succ : keys.countP (· < b + 1) = keys.countP (· < b) + keys.count b := by
  rw [List.count]
  induction keys with
  | nil => rfl
  | cons k keys ih =>
    simp only [countP_cons, ih]
    by_cases hk : k = b
    · simp [hk]
      omega
    · have hiff : k < b + 1 ↔ k < b := by omega
      simp [hk, hiff]
      omega

theorem sum_take_tally (hb : b ≤ m) : ((tally m keys).take b).sum = keys.countP (· < b) := by
  induction b with
  | zero => simp
  | succ b ih =>
    rw [take_add_one, tally_getElem? (by omega), sum_append, ih (by omega), countP_lt_succ]
    simp

theorem offsets_getD (hb : b ≤ m) : (offsets (tally m keys)).getD b 0 = keys.countP (· < b) := by
  have hlt : b < (range ((tally m keys).length + 1)).length := by simp; omega
  rw [offsets, getD_eq_getElem _ _ (by simpa using hlt), getElem_map, getElem_range, sum_take_tally hb]

theorem countP_lt_mono (h : a ≤ b) (keys : List Nat) : keys.countP (· < a) ≤ keys.countP (· < b) := by
  refine countP_mono_left fun k _ hk => ?_
  rw [decide_eq_true_iff] at hk ⊢
  omega

/-- After the positions of `front` are placed every cursor stands behind those of its key. -/
structure Placed (m : Nat) (keys front cursor slots : List Nat) : Prop where
  length_slots : slots.length = keys.length
  cursor_eq : ∀ b < m, cursor.getD b 0 = keys.countP (· < b) + front.count b
  length_cursor : m ≤ cursor.length
  written : ∀ b < m, (slots.drop (keys.countP (· < b))).take (front.count b) = positions b front

theorem placed_nil : Placed m keys [] (offsets (tally m keys)) (replicate keys.length 0) where
  length_slots := length_replicate
  cursor_eq b hb := by simpa using offsets_getD hb.le
  length_cursor := by simp [offsets]
  written b _ := by simp [positions]

/-- Placing the next key fills the slot at its cursor and disturbs no other key. -/
theorem Placed.step (h : Placed m keys front cursor slots) (hkeys : keys = front ++ k :: rest) (hk : k < m) :
    Placed m keys (front ++ [k]) (cursor.modify k (· + 1)) (slots.set (cursor.getD k 0) front.length) := by
  -- The cursor is inside the segment of its key.
  have hinside : keys.countP (· < k) + front.count k < keys.countP (· < k + 1) := by
    have hcount : keys.count k = front.count k + 1 + rest.count k := by
      rw [hkeys, count_append, count_cons_self]
      omega
    rw [countP_lt_succ]
    omega
  have htotal : keys.countP (· < k + 1) ≤ keys.length := countP_le_length
  have hlt : k < cursor.length := lt_of_lt_of_le hk h.length_cursor
  refine ⟨by rw [length_set, h.length_slots], ?_, by rw [length_modify]; exact h.length_cursor, ?_⟩
  · intro b hb
    have hb' := lt_of_lt_of_le hb h.length_cursor
    have hold := h.cursor_eq b hb
    rw [getD_eq_getElem _ _ hb'] at hold
    rw [getD_eq_getElem _ _ (by simpa using hb'), getElem_modify, hold, count_append]
    by_cases hkb : k = b <;> simp [hkb]
    omega
  · intro b hb
    rw [h.cursor_eq k hk, positions_snoc, count_append]
    by_cases hkb : k = b
    · subst hkb
      have hdrop : (slots.set (keys.countP (· < k) + front.count k) front.length).drop (keys.countP (· < k)) =
          (slots.drop (keys.countP (· < k))).set (front.count k) front.length := by
        rw [drop_set, if_neg (by omega), Nat.add_sub_cancel_left]
      have hlen : front.count k < (slots.drop (keys.countP (· < k))).length := by
        rw [length_drop, h.length_slots]
        omega
      rw [hdrop, if_pos rfl, count_singleton_self, take_add_one, take_set_of_le le_rfl,
        h.written k hk, getElem?_set_self hlen]
      rfl
    · rw [if_neg hkb, append_nil, count_singleton, if_neg (by simpa using hkb), Nat.add_zero, ← h.written b hb]
      rcases Nat.lt_or_gt_of_ne hkb with hlo | hhi
      · -- The segment of `b` begins behind the cursor.
        have := countP_lt_mono (by omega : k + 1 ≤ b) keys
        rw [drop_set_of_lt (by omega)]
      · -- What is written of the segment of `b` ends in front of the cursor.
        have hend := countP_lt_mono (by omega : b + 1 ≤ k) keys
        have hcount : front.count b ≤ keys.count b := by
          rw [hkeys, count_append]
          omega
        rw [countP_lt_succ] at hend
        rw [drop_set, if_neg (by omega), take_set_of_le (by omega)]

theorem placed_placeFrom (h : Placed m keys front cursor slots)
    (hkeys : keys = front ++ rest) (hlt : ∀ k ∈ rest, k < m) :
    ∃ cursor', Placed m keys keys cursor' (placeFrom cursor slots front.length rest) := by
  induction rest generalizing front cursor slots with
  | nil =>
    rw [append_nil] at hkeys
    exact ⟨cursor, by rw [placeFrom]; exact hkeys ▸ h⟩
  | cons k rest ih =>
    have hk := hlt k (by simp)
    obtain ⟨cursor', hplaced⟩ := @ih (front ++ [k]) _ _ (h.step hkeys hk) (by simpa using hkeys)
      (fun k' hk' => hlt k' (by simp [hk']))
    rw [length_append, length_singleton] at hplaced
    exact ⟨cursor', hplaced⟩

theorem segment_place (hlt : ∀ k ∈ keys, k < m) (hb : b < m) :
    segment (offsets (tally m keys)) (place m keys) b = positions b keys := by
  obtain ⟨cursor, h⟩ := placed_placeFrom (@placed_nil m keys) rfl hlt
  rw [segment, offsets_getD hb.le, offsets_getD hb, countP_lt_succ, Nat.add_sub_cancel_left]
  exact h.written b hb

end CountingSort
