import Mathlib.Data.List.Basic
import Mathlib.Tactic

/-!
# Longest common subsequences

The recursion for the length of a longest common subsequence of two lists, and that it is one: no common
subsequence is longer. An alignment is a list of items that match, that are only in the first list or only
in the second.
-/

namespace Subsequence

variable {α : Type*} [DecidableEq α]

def lcs : List α → List α → Nat
  | [], _ => 0
  | _ :: _, [] => 0
  | x :: xs, y :: ys => if x = y then lcs xs ys + 1 else max (lcs xs (y :: ys)) (lcs (x :: xs) ys)
  termination_by xs ys => xs.length + ys.length

@[simp]
theorem lcs_nil_left (ys : List α) : lcs [] ys = 0 := by
  rw [lcs]

@[simp]
theorem lcs_nil_right (xs : List α) : lcs xs [] = 0 := by
  cases xs with
  | nil => rw [lcs]
  | cons x xs => rw [lcs]

theorem lcs_cons (x y : α) (xs ys : List α) :
    lcs (x :: xs) (y :: ys) = if x = y then lcs xs ys + 1 else max (lcs xs (y :: ys)) (lcs (x :: xs) ys) := by
  rw [lcs]

theorem length_le_lcs {s xs ys : List α} (hx : s.Sublist xs) (hy : s.Sublist ys) : s.length ≤ lcs xs ys := by
  induction xs generalizing s ys with
  | nil =>
    rw [List.sublist_nil.mp hx]
    exact Nat.zero_le _
  | cons x xs ihx =>
    induction ys generalizing s with
    | nil =>
      rw [List.sublist_nil.mp hy]
      exact Nat.zero_le _
    | cons y ys ihy =>
      rw [lcs_cons]
      split_ifs with heq
      · cases s with
        | nil => exact Nat.zero_le _
        | cons z s => exact Nat.succ_le_succ (ihx hx.tail hy.tail)
      · -- The first item of the subsequence is not the first of both lists.
        rcases List.sublist_cons_iff.mp hx with hx' | ⟨t, rfl, hx'⟩
        · exact (ihx hx' hy).trans (le_max_left _ _)
        · rcases List.sublist_cons_iff.mp hy with hy' | ⟨u, hu, hy'⟩
          · exact (ihy hx hy').trans (le_max_right _ _)
          · exact absurd (List.cons.inj hu).1 heq

inductive Item (α : Type*) where
  | both (x : α)
  | first (x : α)
  | second (x : α)
  deriving DecidableEq, Repr

def Item.left? : Item α → Option α
  | .both x => some x
  | .first x => some x
  | .second _ => none

def Item.right? : Item α → Option α
  | .both x => some x
  | .first _ => none
  | .second x => some x

def Item.both? : Item α → Option α
  | .both x => some x
  | _ => none

structure Aligns (items : List (Item α)) (xs ys : List α) : Prop where
  left : items.filterMap Item.left? = xs
  right : items.filterMap Item.right? = ys

omit [DecidableEq α] in
theorem Aligns.sublist (h : Aligns items xs ys) :
    (items.filterMap Item.both?).Sublist xs ∧ (items.filterMap Item.both?).Sublist ys := by
  rw [← h.left, ← h.right]
  clear h
  induction items with
  | nil => exact ⟨List.Sublist.slnil, List.Sublist.slnil⟩
  | cons i items ih =>
    cases i with
    | both x => exact ⟨ih.1.cons_cons x, ih.2.cons_cons x⟩
    | first x => exact ⟨ih.1.cons x, ih.2⟩
    | second x => exact ⟨ih.1, ih.2.cons x⟩

end Subsequence
