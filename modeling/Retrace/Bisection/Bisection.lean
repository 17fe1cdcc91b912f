import Mathlib.Order.Compare
import Mathlib.Data.List.Basic
import Mathlib.Tactic

/-!
# Search by halving

A list is searched for an element that a comparison with the target calls equal. Between two positions the
middle element says on which side to go on. On a list along which the comparison goes from less over equal to
greater the search finds an equal element exactly when there is one (`bisect_iff`).
-/

namespace Bisection

variable {α : Type*}

def bisect (cmp : α → Ordering) (items : List α) : Nat → Nat → Nat → Bool
  | 0, _, _ => false
  | fuel + 1, lo, hi =>
    if lo < hi then
      match (items[lo + (hi - lo) / 2]?).map cmp with
      | some .eq => true
      | some .lt => bisect cmp items fuel (lo + (hi - lo) / 2 + 1) hi
      | some .gt => bisect cmp items fuel lo (lo + (hi - lo) / 2)
      | none => false
    else false

def Ascending (cmp : α → Ordering) (items : List α) : Prop :=
  items.Pairwise fun x y => (cmp y = .lt → cmp x = .lt) ∧ (cmp x = .gt → cmp y = .gt)

variable {cmp : α → Ordering} {items : List α}

theorem Ascending.getElem (h : Ascending cmp items) (hij : i < j) (hj : j < items.length) :
    (cmp items[j] = .lt → cmp items[i] = .lt) ∧ (cmp items[i] = .gt → cmp items[j] = .gt) :=
  List.pairwise_iff_getElem.mp h i j (hij.trans hj) hj hij

def Within (cmp : α → Ordering) (items : List α) (lo hi : Nat) : Prop :=
  ∀ i (h : i < items.length), cmp items[i] = .eq → lo ≤ i ∧ i < hi

theorem bisect_sound (h : bisect cmp items fuel lo hi = true) : ∃ x ∈ items, cmp x = .eq := by
  induction fuel generalizing lo hi with
  | zero => simp [bisect] at h
  | succ fuel ih =>
    rw [bisect] at h
    split_ifs at h with hlt
    cases hmid : items[lo + (hi - lo) / 2]? with
    | none => simp [hmid] at h
    | some x =>
      rw [hmid, Option.map_some] at h
      cases hcmp : cmp x with
      | eq => exact ⟨x, List.mem_of_getElem? hmid, hcmp⟩
      | lt =>
        rw [hcmp] at h
        exact ih h
      | gt =>
        rw [hcmp] at h
        exact ih h

theorem bisect_complete (hasc : Ascending cmp items) (hfuel : hi - lo ≤ fuel)
    (hhi : hi ≤ items.length) (hwithin : Within cmp items lo hi) (hi' : i < items.length)
    (heq : cmp items[i] = .eq) : bisect cmp items fuel lo hi = true := by
  induction fuel generalizing lo hi with
  | zero =>
    obtain ⟨hle, hlt⟩ := hwithin i hi' heq
    omega
  | succ fuel ih =>
    obtain ⟨hle, hlt⟩ := hwithin i hi' heq
    have hmid : lo + (hi - lo) / 2 < items.length := by omega
    rw [bisect, if_pos (lt_of_le_of_lt hle hlt), List.getElem?_eq_getElem hmid, Option.map_some]
    cases hcmp : cmp (items[lo + (hi - lo) / 2]) with
    | eq => rfl
    | lt =>
      refine ih (by omega) hhi fun k hk hkeq => ⟨?_, (hwithin k hk hkeq).2⟩
      -- An equal element is not in front of one that is less.
      by_contra hlow
      rcases Nat.lt_or_eq_of_le (by omega : k ≤ lo + (hi - lo) / 2) with hbefore | hsame
      · rw [(hasc.getElem hbefore hmid).1 hcmp] at hkeq
        cases hkeq
      · subst hsame
        rw [hcmp] at hkeq
        cases hkeq
    | gt =>
      refine ih (by omega) (by omega) fun k hk hkeq => ⟨(hwithin k hk hkeq).1, ?_⟩
      by_contra hhigh
      rcases Nat.lt_or_eq_of_le (by omega : lo + (hi - lo) / 2 ≤ k) with hbehind | hsame
      · rw [(hasc.getElem hbehind hk).2 hcmp] at hkeq
        cases hkeq
      · subst hsame
        rw [hcmp] at hkeq
        cases hkeq

theorem bisect_iff (hasc : Ascending cmp items) :
    bisect cmp items items.length 0 items.length = true ↔ ∃ x ∈ items, cmp x = .eq := by
  constructor
  · exact bisect_sound
  · rintro ⟨x, hx, heq⟩
    obtain ⟨i, hi, rfl⟩ := List.getElem_of_mem hx
    exact bisect_complete hasc (Nat.sub_le _ _) le_rfl (fun k hk _ => ⟨Nat.zero_le k, hk⟩) hi heq

end Bisection
