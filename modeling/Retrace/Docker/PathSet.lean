import Retrace.CLib.CString
import Mathlib.Data.Fintype.Card

/-!
# The declared paths

The set of paths of `docker2inside.c`: a table with linear probing, from which paths are taken by clearing their
slots.
-/

namespace Retrace.Docker

open CLib

abbrev PATH_SET_CAP : Nat := 65536

instance : NeZero PATH_SET_CAP := ⟨by decide⟩

structure PathSet where
  slots : Fin PATH_SET_CAP → Option Bytes := fun _ => none
  count : Nat := 0

def fnv (s : Bytes) : UInt64 := s.foldl (fun h c => (h ^^^ c.toUInt64) * 1099511628211) 1469598103934665603

def home (path : Bytes) : Fin PATH_SET_CAP := Fin.ofNat _ (fnv path).toNat

/-- The loop of `set_add` and of `set_has`: the slot it stops at, none when it has been to all of them. -/
def probe (slots : Fin PATH_SET_CAP → Option Bytes) (path : Bytes) :
    Nat → Fin PATH_SET_CAP → Option (Fin PATH_SET_CAP)
  | 0, _ => none
  | fuel + 1, i => if slots i = none ∨ slots i = some path then some i else probe slots path fuel (i + 1)

/-- Does not return when the loop goes round; `dup` says whether `strdup` has memory. -/
def set_add (set : PathSet) (path : Bytes) (dup : Bool) : Option (PathSet × Int) :=
  (probe set.slots path PATH_SET_CAP (home path)).map fun i =>
    if set.slots i ≠ none then (set, 0)
    else if dup then (⟨Function.update set.slots i (some path), set.count + 1⟩, 0)
    else (set, -1)

def set_has (set : PathSet) (path : Bytes) : Option Bool :=
  (probe set.slots path PATH_SET_CAP (home path)).map fun i => (set.slots i).isSome

def beneath (path s : Bytes) : Bool := path.isPrefixOf s && (s[path.length]? = none || s[path.length]? = some 47)

def set_remove (set : PathSet) (path : Bytes) : PathSet where
  slots i := if (set.slots i).any (beneath path) then none else set.slots i
  count := set.count - (Finset.univ.filter fun i => (set.slots i).any (beneath path)).card

inductive Call where
  | add (path : Bytes) (dup : Bool)
  | remove (path : Bytes)

/-- A call on the table, and on the paths that were added and not removed since. -/
def step (s : PathSet × Finset Bytes) : Call → PathSet × Finset Bytes
  | .add path dup =>
    match set_add s.1 path dup with
    | some (set, rc) => (set, if rc = 0 then insert path s.2 else s.2)
    | none => s
  | .remove path => (set_remove s.1 path, s.2.filter fun q => ¬ beneath path q)

/-- The table holds the paths `xs`, each in one slot, and a call on it returns. -/
structure HoldsSet (set : PathSet) (xs : Finset Bytes) : Prop where
  one : ∀ path ∈ xs, ∃! i, set.slots i = some path
  only : ∀ i path, set.slots i = some path → path ∈ xs
  count : set.count = xs.card
  has : ∀ path, set_has set path = some (decide (path ∈ xs))
  add : ∀ path dup, (set_add set path dup).isSome

end Retrace.Docker
