import Retrace.Profiler.Aggregate
import Retrace.Bisection.Bisection

/-!
# Sets of paths

`corr_pathcmp` and `struct CorrSet` of the correlator. Two paths that both begin with a drive letter are compared
without regard to the case of the letter, any others byte by byte. A set is filled, then sorted, then searched by
halving.
-/

namespace Retrace.Profiler

open CLib Bisection

def has_drive (a : Bytes) : Bool := a.head?.any is_letter && a[1]? == some colon

def upper_drive (c : UInt8) : UInt8 := if 97 ≤ c ∧ c ≤ 122 then c - 97 + 65 else c

def corr_pathcmp (a b : Bytes) : Ordering :=
  if has_drive a ∧ has_drive b then
    let ca := upper_drive (a.headD 0)
    let cb := upper_drive (b.headD 0)
    if ca < cb then .lt else if cb < ca then .gt else strcmp (a.drop 2) (b.drop 2)
  else strcmp a b

def corr_set_add (s : List Bytes) (path : Bytes) : List Bytes :=
  if s.any fun item => corr_pathcmp item path == .eq then s else s ++ [path]

def corr_set_finish (qsort : List Bytes → List Bytes) (s : List Bytes) : List Bytes :=
  if 1 < s.length then qsort s else s

def corr_set_contains (s : List Bytes) (path : Bytes) : Bool := bisect (corr_pathcmp · path) s s.length 0 s.length

def corr_set_of (qsort : List Bytes → List Bytes) (added : List Bytes) : List Bytes :=
  corr_set_finish qsort (added.foldl corr_set_add [])

structure Orders (S : Set Bytes) : Prop where
  antisymm : ∀ a ∈ S, ∀ b ∈ S, corr_pathcmp b a = (corr_pathcmp a b).swap
  trans : ∀ a ∈ S, ∀ b ∈ S, ∀ c ∈ S, corr_pathcmp a b ≠ .gt → corr_pathcmp b c ≠ .gt → corr_pathcmp a c ≠ .gt

/-- What `qsort` promises: the same elements, in order when the comparison orders them. -/
structure Sorts (qsort : List Bytes → List Bytes) : Prop where
  perm : ∀ l, (qsort l).Perm l
  sorted : ∀ l, Orders {x | x ∈ l} → (qsort l).Pairwise fun a b => corr_pathcmp a b ≠ .gt

structure ExactLookup (qsort : List Bytes → List Bytes) (S : Set Bytes) : Prop where
  orders : Orders S
  contains : ∀ added : List Bytes, (∀ a ∈ added, a ∈ S) → ∀ p ∈ S,
    (corr_set_contains (corr_set_of qsort added) p = true ↔ ∃ a ∈ added, corr_pathcmp a p = .eq)

def fold_drive (a : Bytes) : Bytes := upper_drive (a.headD 0) :: a.drop 1

/-- No path without a drive lies, byte by byte, between two paths with a drive that are in the opposite order
once the case of their letters is left out. -/
def Separated (S : Set Bytes) : Prop :=
  ∀ x ∈ S, ∀ y ∈ S, ∀ z ∈ S, has_drive x = true → has_drive y = true → has_drive z = false →
    strcmp (fold_drive x) (fold_drive y) ≠ .gt → ¬ (strcmp y z = .lt ∧ strcmp z x = .lt)

end Retrace.Profiler
