import Mathlib.Data.List.Basic
import Mathlib.Data.List.Count
import Mathlib.Data.List.GetD
import Mathlib.Tactic

/-!
# Linear probing

A table of slots in which one value stands for an empty slot. An item is stored in the first empty slot from
its home on, and searched for from there to the first empty slot. As long as a slot is empty, a search finds
of all items it asks for the one that was stored first.
-/

namespace Probing

open List

variable {α : Type*} [DecidableEq α] {empty : α}

def store (empty x : α) : Nat → Nat → List α → List α
  | 0, _, t => t
  | fuel + 1, b, t =>
    if t.getD b empty ≠ empty then store empty x fuel ((b + 1) % t.length) t else t.set b x

def find (empty : α) (p : α → Bool) (t : List α) : Nat → Nat → Option α
  | 0, _ => none
  | fuel + 1, b =>
    let x := t.getD b empty
    if x = empty then some empty else if p x then some x else find empty p t fuel ((b + 1) % t.length)

/-- The items `xs` were stored in this order: each is found from its home on behind items that were stored
before it. -/
structure Stores (empty : α) (home : α → Nat) (xs t : List α) : Prop where
  path : ∀ pre x post, xs = pre ++ x :: post → ∃ k < t.length, t.getD ((home x + k) % t.length) empty = x ∧
    ∀ j < k, t.getD ((home x + j) % t.length) empty ∈ pre
  mem : ∀ x ∈ t, x = empty ∨ x ∈ xs
  free : t.count empty + xs.length = t.length
  empty_notMem : empty ∉ xs

theorem stores_nil (empty : α) (home : α → Nat) (n : Nat) : Stores empty home [] (replicate n empty) where
  path := by simp
  mem x hx := .inl (eq_of_mem_replicate hx)
  free := by simp
  empty_notMem := by simp

variable {home : α → Nat}

theorem Stores.exists_empty (h : Stores empty home xs t)
    (hlen : xs.length < t.length) (b : Nat) : ∃ k < t.length, t.getD ((b + k) % t.length) empty = empty := by
  have hcount : 0 < t.count empty := by
    have := h.free
    omega
  obtain ⟨i, hi, hget⟩ := getElem_of_mem (count_pos_iff.mp hcount)
  -- The slot `i` is as many steps away from `b` as takes `b` round to it.
  refine ⟨(i + t.length - b % t.length) % t.length, Nat.mod_lt _ (by omega), ?_⟩
  have hb := Nat.mod_lt b (by omega : 0 < t.length)
  have : (b + (i + t.length - b % t.length) % t.length) % t.length = i := by
    rw [Nat.add_mod, Nat.mod_mod, ← Nat.add_mod, Nat.add_mod, ← Nat.mod_mod b, ← Nat.add_mod, Nat.mod_mod,
      show b % t.length + (i + t.length - b % t.length) = i + t.length by omega, Nat.add_mod_right,
      Nat.mod_eq_of_lt hi]
  rw [this, getD_eq_getElem _ _ hi, hget]

theorem find_skip
    (hskip : ∀ j < k, t.getD ((b + j) % t.length) empty ≠ empty ∧ p (t.getD ((b + j) % t.length) empty) = false) :
    find empty p t (fuel + k) (b % t.length) = find empty p t fuel ((b + k) % t.length) := by
  induction k generalizing b with
  | zero => rfl
  | succ k ih =>
    obtain ⟨hne, hp⟩ := hskip 0 (by omega)
    rw [Nat.add_zero] at hne hp
    rw [← Nat.add_assoc, find]
    simp only [if_neg hne, hp, Bool.false_eq_true, if_false, Nat.mod_add_mod]
    rw [ih, Nat.add_right_comm, Nat.add_assoc]
    intro j hj
    have := hskip (j + 1) (by omega)
    rwa [show b + (j + 1) = b + 1 + j by omega] at this

theorem store_skip {t : List α} {b k fuel : Nat} (hskip : ∀ j < k, t.getD ((b + j) % t.length) empty ≠ empty) :
    store empty x (fuel + k) (b % t.length) t = store empty x fuel ((b + k) % t.length) t := by
  induction k generalizing b with
  | zero => rfl
  | succ k ih =>
    have hne := hskip 0 (by omega)
    rw [Nat.add_zero] at hne
    rw [← Nat.add_assoc, store, if_pos hne, Nat.mod_add_mod, ih, Nat.add_right_comm, Nat.add_assoc]
    intro j hj
    have := hskip (j + 1) (by omega)
    rwa [show b + (j + 1) = b + 1 + j by omega] at this

theorem Stores.first_empty (h : Stores empty home xs t) (hlen : xs.length < t.length) (b : Nat) :
    ∃ k < t.length, t.getD ((b + k) % t.length) empty = empty ∧
      ∀ j < k, t.getD ((b + j) % t.length) empty ≠ empty ∧ t.getD ((b + j) % t.length) empty ∈ xs := by
  have hex := h.exists_empty hlen b
  refine ⟨Nat.find hex, (Nat.find_spec hex).1, (Nat.find_spec hex).2, fun j hj => ?_⟩
  have hlt : j < t.length := hj.trans (Nat.find_spec hex).1
  have hne : t.getD ((b + j) % t.length) empty ≠ empty := fun heq => Nat.find_min hex hj ⟨hlt, heq⟩
  refine ⟨hne, (h.mem _ ?_).resolve_left hne⟩
  rw [getD_eq_getElem _ _ (Nat.mod_lt _ (by omega))]
  exact getElem_mem _

theorem Stores.store (h : Stores empty home xs t) (hlen : xs.length < t.length) {x : α} (hx : x ≠ empty) :
    Stores empty home (xs ++ [x]) (store empty x t.length (home x % t.length) t) ∧
      (Probing.store empty x t.length (home x % t.length) t).length = t.length := by
  obtain ⟨k, hk, hempty, hused⟩ := h.first_empty hlen (home x)
  have hstore : Probing.store empty x t.length (home x % t.length) t = t.set ((home x + k) % t.length) x := by
    obtain ⟨fuel, hfuel⟩ := Nat.exists_eq_add_of_lt hk
    have hskip := @store_skip _ _ empty x t (home x) k (fuel + 1) fun j hj => (hused j hj).1
    rw [show fuel + 1 + k = t.length by omega] at hskip
    rw [hskip, Probing.store, if_neg (not_not.mpr hempty)]
  have hpos : (home x + k) % t.length < t.length := Nat.mod_lt _ (by omega)
  have hget : ∀ i, i ≠ (home x + k) % t.length →
      (t.set ((home x + k) % t.length) x).getD i empty = t.getD i empty := by
    intro i hi
    rw [getD_eq_getElem?_getD, getD_eq_getElem?_getD, getElem?_set_ne hi.symm]
  have hset : (t.set ((home x + k) % t.length) x).getD ((home x + k) % t.length) empty = x := by
    rw [getD_eq_getElem?_getD, getElem?_set_self hpos, Option.getD_some]
  rw [hstore, length_set]
  refine ⟨⟨fun pre y post hsplit => ?_, fun y hy => ?_, ?_, ?_⟩, rfl⟩
  · rw [length_set]
    rcases eq_nil_or_concat post with rfl | ⟨post, z, rfl⟩
    · -- The item is the new one.
      obtain ⟨rfl, hxy⟩ := append_inj' hsplit rfl
      obtain rfl : x = y := by simpa using hxy
      refine ⟨k, hk, hset, fun j hj => ?_⟩
      rw [hget ((home x + j) % t.length) fun heq => (hused j hj).1 (by rw [heq, hempty])]
      exact (hused j hj).2
    · rw [concat_eq_append, ← cons_append, ← append_assoc] at hsplit
      have hxs : xs = pre ++ y :: post := (append_inj' hsplit rfl).1
      have hkeeps : ∀ i, t.getD i empty ∈ xs →
          (t.set ((home x + k) % t.length) x).getD i empty = t.getD i empty := by
        intro i hi
        refine hget i fun heq => h.empty_notMem ?_
        rwa [heq, hempty] at hi
      obtain ⟨k', hk', hy, hpath⟩ := h.path pre y post hxs
      refine ⟨k', hk', ?_, fun j hj => ?_⟩
      · rw [hkeeps _ (by rw [hy, hxs]; simp), hy]
      · rw [hkeeps _ (by rw [hxs]; exact mem_append_left _ (hpath j hj))]
        exact hpath j hj
  · rcases mem_or_eq_of_mem_set hy with hy | rfl
    · rcases h.mem y hy with hy | hy
      · exact .inl hy
      · exact .inr (mem_append_left _ hy)
    · exact .inr (by simp)
  · have hfree := h.free
    rw [getD_eq_getElem _ _ hpos] at hempty
    have hcount : 0 < t.count empty := count_pos_iff.mpr (hempty ▸ getElem_mem hpos)
    rw [count_set hpos, length_append, length_singleton, hempty]
    simp [hx]
    omega
  · simp [h.empty_notMem, hx.symm]

theorem Stores.find (h : Stores empty home xs t) (hlen : xs.length < t.length)
    (hhome : ∀ x ∈ xs, p x = true → home x = b) :
    Probing.find empty p t t.length (b % t.length) = some ((xs.find? p).getD empty) := by
  have hne : ∀ x ∈ xs, x ≠ empty := fun x hx heq => h.empty_notMem (heq ▸ hx)
  -- The search stops `k` slots behind `b` when it goes past all slots before.
  have hstop : ∀ k < t.length, (∀ j < k, t.getD ((b + j) % t.length) empty ∈ xs ∧
      p (t.getD ((b + j) % t.length) empty) = false) →
      ∃ fuel, Probing.find empty p t t.length (b % t.length) =
        Probing.find empty p t (fuel + 1) ((b + k) % t.length) := by
    intro k hk hskip
    obtain ⟨fuel, hfuel⟩ := Nat.exists_eq_add_of_lt hk
    refine ⟨fuel, ?_⟩
    rw [← find_skip fun j hj => ⟨hne _ (hskip j hj).1, (hskip j hj).2⟩]
    congr 1
    omega
  cases hfind : xs.find? p with
  | none =>
    have hnone := find?_eq_none.mp hfind
    obtain ⟨k, hk, hempty, hused⟩ := h.first_empty hlen b
    obtain ⟨fuel, hrun⟩ := hstop k hk fun j hj => ⟨(hused j hj).2, by simpa using hnone _ (hused j hj).2⟩
    rw [hrun, Probing.find, if_pos hempty]
    rfl
  | some x =>
    obtain ⟨hpx, pre, post, hsplit, hpre⟩ := find?_eq_some_iff_append.mp hfind
    have hmem : x ∈ xs := by
      rw [hsplit]
      simp
    obtain ⟨k, hk, hx, hpath⟩ := h.path pre x post hsplit
    rw [hhome x hmem hpx] at hx hpath
    obtain ⟨fuel, hrun⟩ := hstop k hk fun j hj =>
      ⟨by rw [hsplit]; exact mem_append_left _ (hpath j hj), by simpa using hpre _ (hpath j hj)⟩
    rw [hrun, Probing.find, hx, if_neg (hne x hmem), if_pos hpx]
    rfl

end Probing
