import Retrace.Docker.PathSet
import Retrace.Runs.Runs

/-!
# When the declared paths are a set

A removal that clears a slot on the way to another path hides that path. Runs in which no removal does so, and in
which a slot stays free, keep a set.
-/

namespace Retrace.Docker

open CLib Runs Option

variable {slots slots' : Fin PATH_SET_CAP → Option Bytes} {set : PathSet} {xs : Finset Bytes} {path : Bytes}
  {fuel : Nat} {i j : Fin PATH_SET_CAP}

/-- The slots that the loop goes past. -/
def way (slots : Fin PATH_SET_CAP → Option Bytes) (path : Bytes) : Nat → Fin PATH_SET_CAP → List (Fin PATH_SET_CAP)
  | 0, _ => []
  | fuel + 1, i => if slots i = none ∨ slots i = some path then [] else i :: way slots path fuel (i + 1)

theorem probe_stop (h : probe slots path fuel i = some j) : slots j = none ∨ slots j = some path := by
  induction fuel generalizing i with
  | zero => cases h
  | succ fuel ih =>
    rw [probe] at h
    split_ifs at h with hstop
    · exact some.inj h ▸ hstop
    · exact ih h

theorem way_used (h : j ∈ way slots path fuel i) : slots j ≠ none := by
  induction fuel generalizing i with
  | zero => cases h
  | succ fuel ih =>
    rw [way] at h
    split_ifs at h with hstop
    · cases h
    · rcases List.mem_cons.1 h with rfl | h
      · exact fun hnone => hstop (.inl hnone)
      · exact ih h

/-- The loop stops at the same slot when the slots on its way are as before. -/
theorem probe_keeps (h : probe slots path fuel i = some j) (hway : ∀ k ∈ way slots path fuel i, slots' k = slots k)
    (hstop : slots' j = none ∨ slots' j = some path) : probe slots' path fuel i = some j := by
  induction fuel generalizing i with
  | zero => cases h
  | succ fuel ih =>
    rw [probe] at h ⊢
    rw [way] at hway
    split_ifs at h hway with hi
    · obtain rfl := some.inj h
      exact if_pos hstop
    · rw [hway i List.mem_cons_self, if_neg hi]
      exact ih h fun k hk => hway k (List.mem_cons_of_mem i hk)

/-- A loop that does not stop has been to all slots. -/
theorem probe_none (h : probe slots path fuel i = none) : ∀ k < fuel, slots (i + Fin.ofNat _ k) ≠ none := by
  induction fuel generalizing i with
  | zero => simp
  | succ fuel ih =>
    rw [probe] at h
    split_ifs at h with hi
    rintro (_ | k) hk
    · simpa using fun hnone => hi (.inl hnone)
    · have hnext : i + Fin.ofNat PATH_SET_CAP (k + 1) = i + 1 + Fin.ofNat _ k := by
        simp only [Fin.ext_iff, Fin.val_add, Fin.val_ofNat, Fin.val_one, PATH_SET_CAP]
        omega
      rw [hnext]
      exact ih h k (Nat.lt_of_succ_lt_succ hk)

/-- The loop finds each path, which is in one slot, and a slot is free. -/
structure Placed (set : PathSet) (xs : Finset Bytes) : Prop where
  found : ∀ path ∈ xs, ∃ i, probe set.slots path PATH_SET_CAP (home path) = some i ∧ set.slots i = some path
  only : ∀ i path, set.slots i = some path → path ∈ xs
  inj : ∀ i j path, set.slots i = some path → set.slots j = some path → i = j
  count : set.count = xs.card
  room : xs.card < PATH_SET_CAP

theorem Placed.probe (h : Placed set xs) (path : Bytes) :
    ∃ i, probe set.slots path PATH_SET_CAP (home path) = some i ∧ (set.slots i).isSome = decide (path ∈ xs) := by
  by_cases hpath : path ∈ xs
  · obtain ⟨i, hprobe, hi⟩ := h.found path hpath
    exact ⟨i, hprobe, by simp [hi, hpath]⟩
  · cases hprobe : Docker.probe set.slots path PATH_SET_CAP (home path) with
    | some i =>
      have hfree := (probe_stop hprobe).resolve_right fun hi => hpath (h.only i path hi)
      exact ⟨i, rfl, by simp [hfree, hpath]⟩
    | none =>
      -- all slots hold paths of the set, which has fewer
      have hall : ∀ i, ∃ q, set.slots i = some q := fun i => by
        have hused := probe_none hprobe (i - home path).val (i - home path).isLt
        rw [Fin.ofNat_val_eq_self, add_sub_cancel] at hused
        exact ne_none_iff_exists'.1 hused
      choose f hf using hall
      have hle := Finset.card_le_card_of_injOn f (s := Finset.univ) (t := xs) (fun i _ => h.only i _ (hf i))
        fun i _ j _ heq => h.inj i j _ (hf i) (heq ▸ hf j)
      rw [Finset.card_univ, Fintype.card_fin] at hle
      exact absurd h.room hle.not_gt

theorem Placed.holds (h : Placed set xs) : HoldsSet set xs := by
  refine ⟨fun path hpath => ?_, h.only, h.count, fun path => ?_, fun path dup => ?_⟩
  · obtain ⟨i, -, hi⟩ := h.found path hpath
    exact ⟨i, hi, fun j hj => h.inj j i path hj hi⟩
  · obtain ⟨i, hprobe, hi⟩ := h.probe path
    rw [set_has, hprobe, map_some, hi]
  · obtain ⟨i, hprobe, -⟩ := h.probe path
    rw [set_add, hprobe, map_some, isSome_some]

/-- An addition leaves a slot free, and a removal clears no slot on the way to a path that stays. -/
def CallOk (s : PathSet × Finset Bytes) : Call → Prop
  | .add path _ => (∃ i, s.1.slots i = some path) ∨ s.1.count + 1 < PATH_SET_CAP
  | .remove path => ∀ q ∈ s.2, beneath path q = false → ∀ j ∈ way s.1.slots q PATH_SET_CAP (home q), ∀ r,
      s.1.slots j = some r → beneath path r = false

/-- A path that is put into the free slot at the end of its probe is found there, and the others are found as
before. -/
theorem Placed.insert (h : Placed set xs) (hpath : path ∉ xs)
    (hprobe : Docker.probe set.slots path PATH_SET_CAP (home path) = some i)
      (hroom : set.count + 1 < PATH_SET_CAP) :
    Placed ⟨Function.update set.slots i (some path), set.count + 1⟩ (insert path xs) := by
  have hfree := (probe_stop hprobe).resolve_right fun hi => hpath (h.only i path hi)
  have hold : ∀ k, set.slots k ≠ none → Function.update set.slots i (some path) k = set.slots k := by
    rintro k hk
    exact Function.update_of_ne (by rintro rfl; exact hk hfree) _ _
  have hnew : Function.update set.slots i (some path) i = some path := Function.update_self ..
  have hcases : ∀ k q, Function.update set.slots i (some path) k = some q →
      (k = i ∧ q = path) ∨ set.slots k = some q := by
    intro k q hk
    rw [Function.update_apply] at hk
    split_ifs at hk with heq
    · exact .inl ⟨heq, (some.inj hk).symm⟩
    · exact .inr hk
  refine ⟨fun q hq => ?_, fun k q hk => ?_, fun k k' q hk hk' => ?_, ?_, ?_⟩
  · rcases Finset.mem_insert.1 hq with rfl | hq
    · exact ⟨i, probe_keeps hprobe (fun k hk => hold k (way_used hk)) (.inr hnew), hnew⟩
    · obtain ⟨k, hfound, hk⟩ := h.found q hq
      have hk' := (hold k (by simp [hk])).trans hk
      exact ⟨k, probe_keeps hfound (fun k hk => hold k (way_used hk)) (.inr hk'), hk'⟩
  · exact Finset.mem_insert.2 ((hcases k q hk).imp And.right (h.only k q))
  · rcases hcases k q hk with ⟨rfl, rfl⟩ | hslot
    · rcases hcases k' q hk' with ⟨rfl, -⟩ | hslot'
      · rfl
      · exact absurd (h.only _ _ hslot') hpath
    · rcases hcases k' q hk' with ⟨rfl, rfl⟩ | hslot'
      · exact absurd (h.only _ _ hslot) hpath
      · exact h.inj k k' q hslot hslot'
  · rw [Finset.card_insert_of_notMem hpath, ← h.count]
  · rwa [Finset.card_insert_of_notMem hpath, ← h.count]

theorem Placed.add (h : Placed set xs) (path : Bytes) (dup : Bool) (hok : CallOk (set, xs) (.add path dup)) :
    Placed (step (set, xs) (.add path dup)).1 (step (set, xs) (.add path dup)).2 := by
  obtain ⟨i, hprobe, hi⟩ := h.probe path
  by_cases hpath : path ∈ xs
  · have hused : set.slots i ≠ none := isSome_iff_ne_none.1 (by simpa [hpath] using hi)
    simpa [step, set_add, hprobe, hused, Finset.insert_eq_of_mem hpath] using h
  · have hfree : set.slots i = none := by simpa [hpath] using hi
    have hroom := hok.resolve_left fun ⟨k, hk⟩ => hpath (h.only k path hk)
    cases dup with
    | true => simpa [step, set_add, hprobe, hfree] using h.insert hpath hprobe hroom
    | false => simpa [step, set_add, hprobe, hfree] using h

theorem Placed.remove (h : Placed set xs) (path : Bytes) (hok : CallOk (set, xs) (.remove path)) :
    Placed (set_remove set path) (xs.filter fun q => ¬ beneath path q) := by
  have hkept : ∀ i q, (set_remove set path).slots i = some q ↔ set.slots i = some q ∧ beneath path q = false := by
    intro i q
    simp only [set_remove]
    cases hslot : set.slots i with
    | none => simp
    | some r => by_cases hr : beneath path r <;> grind
  -- the cleared slots are those of the paths that go
  have hcleared : (Finset.univ.filter fun i => (set.slots i).any (beneath path)).card =
      (xs.filter (beneath path ·)).card := by
    refine Finset.card_bij (fun i _ => (set.slots i).getD []) (fun i hi => ?_)
      (fun i hi k hk heq => ?_) fun q hq => ?_
    · obtain ⟨q, hq, hgo⟩ := (any_eq_true _ _).1 (Finset.mem_filter.1 hi).2
      rw [hq]
      exact Finset.mem_filter.2 ⟨h.only i q hq, hgo⟩
    · obtain ⟨q, hq, -⟩ := (any_eq_true _ _).1 (Finset.mem_filter.1 hi).2
      obtain ⟨r, hr, -⟩ := (any_eq_true _ _).1 (Finset.mem_filter.1 hk).2
      rw [hq, hr] at heq
      exact h.inj i k q hq (hr.trans (congrArg some heq.symm))
    · obtain ⟨hq, hgo⟩ := Finset.mem_filter.1 hq
      obtain ⟨i, -, hi⟩ := h.found q hq
      exact ⟨i, Finset.mem_filter.2 ⟨Finset.mem_univ i, by simpa [hi] using hgo⟩, by rw [hi, getD_some]⟩
  refine ⟨fun q hq => ?_, fun i q hi => ?_, fun i j q hi hj => ?_, ?_, (Finset.card_filter_le _ _).trans_lt h.room⟩
  · obtain ⟨hq, hstay⟩ := Finset.mem_filter.1 hq
    obtain ⟨i, hprobe, hi⟩ := h.found q hq
    have hslot := (hkept i q).2 ⟨hi, by simpa using hstay⟩
    refine ⟨i, probe_keeps hprobe (fun k hk => ?_) (.inr hslot), hslot⟩
    obtain ⟨r, hr⟩ := ne_none_iff_exists'.1 (way_used hk)
    rw [(hkept k r).2 ⟨hr, hok q hq (by simpa using hstay) k hk r hr⟩, hr]
  · obtain ⟨hi, hstay⟩ := (hkept i q).1 hi
    exact Finset.mem_filter.2 ⟨h.only i q hi, by simpa using hstay⟩
  · exact h.inj i j q ((hkept i q).1 hi).1 ((hkept j q).1 hj).1
  · have hsplit := Finset.card_filter_add_card_filter_not (s := xs) (beneath path ·)
    simp only [set_remove, hcleared, h.count]
    omega

/-- In every run of calls that keep to the condition, the table holds the paths that were added and not removed
since. -/
theorem path_set_is_set (calls : List Call) (hok : Along step CallOk ({}, ∅) calls) :
    HoldsSet (run step ({}, ∅) calls).1 (run step ({}, ∅) calls).2 := by
  have hinit : Placed {} ∅ := ⟨by simp, by simp, by simp, rfl, by simp⟩
  refine (run_invariant (fun s => Placed s.1 s.2) (fun s call h hcall => ?_) hinit hok).holds
  cases call with
  | add path dup => exact h.add path dup hcall
  | remove path => exact h.remove path hcall

/-- Two paths of one home: the one that stands behind the other is removed, and the other is still found. -/
theorem path_set_shared_home : home (bytes "/axy") = home (bytes "/cja") ∧
    HoldsSet (run step ({}, ∅) [.add (bytes "/axy") true, .add (bytes "/cja") true, .remove (bytes "/cja")]).1
      {bytes "/axy"} := by
  have hadded : (run step ({}, ∅) [.add (bytes "/axy") true, .add (bytes "/cja") true]).2 =
      {bytes "/axy", bytes "/cja"} := by decide
  have hleft : (run step ({}, ∅) [.add (bytes "/axy") true, .add (bytes "/cja") true, .remove (bytes "/cja")]).2 =
      {bytes "/axy"} := by decide
  refine ⟨by decide, hleft ▸ path_set_is_set _ ⟨.inr (by decide), .inr (by decide), ?_, trivial⟩⟩
  intro q hq hstay j hj
  rcases Finset.mem_insert.1 (hadded ▸ hq) with rfl | hq
  · have hway : way (run step ({}, ∅) [.add (bytes "/axy") true, .add (bytes "/cja") true]).1.slots (bytes "/axy")
        PATH_SET_CAP (home (bytes "/axy")) = [] := by decide
    exact absurd (hway ▸ hj) List.not_mem_nil
  · rw [Finset.mem_singleton.1 hq] at hstay
    exact absurd hstay (by decide)

/-- Both paths have the same home. -/
theorem removal_hides_path :
    ¬ HoldsSet (run step ({}, ∅) [.add (bytes "/axy") true, .add (bytes "/cja") true, .remove (bytes "/axy")]).1
      (run step ({}, ∅) [.add (bytes "/axy") true, .add (bytes "/cja") true, .remove (bytes "/axy")]).2 :=
  fun h => absurd (h.has (bytes "/cja")) (by decide)

end Retrace.Docker
