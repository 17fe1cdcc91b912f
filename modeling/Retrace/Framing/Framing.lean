import Mathlib.Data.List.Basic
import Mathlib.Tactic

/-!
# Streams cut into items

A reader cuts a stream into items by taking the next one from its front. What it takes may not depend
on what has not arrived yet (`Framer.stable`), so that the items of a stream do not depend on how the
stream is cut into chunks (`items_append`).
-/

namespace Framing

/-- How the next item is taken from the front of a stream; `none` while it is not complete. -/
structure Framer (α β : Type*) where
  next : List α → Option (β × List α)
  shrinks : ∀ {s b r}, next s = some (b, r) → r.length < s.length
  stable : ∀ {s b r}, next s = some (b, r) → ∀ t, next (s ++ t) = some (b, r ++ t)

namespace Framer

variable {α β : Type*} (F : Framer α β)

def itemsFrom : Nat → List α → List β
  | 0, _ => []
  | fuel + 1, s =>
    match F.next s with
    | none => []
    | some (b, r) => b :: itemsFrom fuel r

def restFrom : Nat → List α → List α
  | 0, s => s
  | fuel + 1, s =>
    match F.next s with
    | none => s
    | some (_, r) => restFrom fuel r

def items (s : List α) : List β := F.itemsFrom s.length s

def rest (s : List α) : List α := F.restFrom s.length s

variable {F}

theorem induct {P : List α → Prop} (hnone : ∀ s, F.next s = none → P s)
    (hsome : ∀ s b r, F.next s = some (b, r) → P r → P s) (s : List α) : P s := by
  induction hn : s.length using Nat.strong_induction_on generalizing s with
  | _ n ih =>
    cases hnext : F.next s with
    | none => exact hnone s hnext
    | some x =>
      have hlt := F.shrinks hnext
      exact hsome s x.1 x.2 hnext (ih x.2.length (by omega) x.2 rfl)

theorem from_mono {s : List α} : ∀ {fuel fuel' : Nat}, s.length ≤ fuel → s.length ≤ fuel' →
    F.itemsFrom fuel s = F.itemsFrom fuel' s ∧ F.restFrom fuel s = F.restFrom fuel' s := by
  induction s using F.induct with
  | hnone s hnext =>
    intro fuel fuel' _ _
    cases fuel <;> cases fuel' <;> simp [itemsFrom, restFrom, hnext]
  | hsome s b r hnext ih =>
    intro fuel fuel' h h'
    have hlt := F.shrinks hnext
    cases fuel with
    | zero => omega
    | succ fuel =>
      cases fuel' with
      | zero => omega
      | succ fuel' =>
        obtain ⟨hi, hr⟩ := @ih fuel fuel' (by omega) (by omega)
        simp [itemsFrom, restFrom, hnext, hi, hr]

theorem items_of_none (h : F.next s = none) : F.items s = [] := by
  unfold items
  cases s.length <;> simp [itemsFrom, h]

theorem rest_of_none (h : F.next s = none) : F.rest s = s := by
  unfold rest
  cases s.length <;> simp [restFrom, h]

theorem of_some (h : F.next s = some (b, r)) : F.items s = b :: F.items r ∧ F.rest s = F.rest r := by
  have hlt := F.shrinks h
  obtain ⟨n, hn⟩ := Nat.exists_eq_add_of_lt hlt
  obtain ⟨hi, hr⟩ := @from_mono _ _ F r (r.length + n) r.length (by omega) (le_refl _)
  simp [items, rest, hn, itemsFrom, restFrom, h, hi, hr]

theorem items_of_some (h : F.next s = some (b, r)) :
    F.items s = b :: F.items r := (of_some h).1

theorem rest_of_some (h : F.next s = some (b, r)) : F.rest s = F.rest r :=
  (of_some h).2

theorem next_rest (s : List α) : F.next (F.rest s) = none := by
  induction s using F.induct with
  | hnone s hnext => rw [rest_of_none hnext, hnext]
  | hsome s b r hnext ih => rw [rest_of_some hnext, ih]

theorem items_append (s t : List α) : F.items (s ++ t) = F.items s ++ F.items (F.rest s ++ t) := by
  induction s using F.induct with
  | hnone s hnext => simp [items_of_none hnext, rest_of_none hnext]
  | hsome s b r hnext ih =>
    rw [items_of_some hnext, rest_of_some hnext, items_of_some (F.stable hnext t), ih, List.cons_append]

theorem rest_append (s t : List α) : F.rest (s ++ t) = F.rest (F.rest s ++ t) := by
  induction s using F.induct with
  | hnone s hnext => rw [rest_of_none hnext]
  | hsome s b r hnext ih => rw [rest_of_some hnext, rest_of_some (F.stable hnext t), ih]

end Framer

end Framing
