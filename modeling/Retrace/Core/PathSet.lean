import Retrace.CLib.CString
import Retrace.CountingSort.CountingSort

/-!
# Compiled path sets

The membership test of `sandbox.c`. A policy array is compiled once: its entries are laid out by the hash of
their first path component, and relative entries and the rule for the root go into a bucket of their own. A
test looks at the bucket of the path and at that one. The compiled sets are kept in eight slots and found again
by the address of the array; a set is taken for valid when the count and the two entries at the ends are those
of the array.
-/

namespace Retrace.Core

open CLib CountingSort

def PATH_BUCKETS : Nat := 32

def PATH_SETS_MAX : Nat := 8

abbrev PolicyArray := List (Option Bytes)

/-- `path_matches`: the entry itself, or anything under it when it ends with a separator. -/
def path_matches (path_arg entry : Bytes) : Bool :=
  match entry.getLast? with
  | none => false
  | some last => if last = 47 ∨ last = 92 then entry.isPrefixOf path_arg else path_arg == entry

def comp_hash : UInt32 → Bytes → UInt32
  | h, [] => h
  | h, c :: s => if c = 47 ∨ c = 92 then h else comp_hash ((h ^^^ c.toUInt32) * 16777619) s

def first_comp_hash (s : Bytes) : UInt32 := comp_hash 2166136261 (if s.head? = some 47 then s.tail else s)

def entry_bucket (entry : Bytes) : Nat :=
  if entry.head? ≠ some 47 then PATH_BUCKETS
  else if entry.length = 1 then PATH_BUCKETS
  else (first_comp_hash entry).toNat % PATH_BUCKETS

def bucket_of (e : Option Bytes) : Nat := e.elim PATH_BUCKETS entry_bucket

structure PathSet where
  count : Nat
  first_copy : Option Bytes
  last_copy : Option Bytes
  off : List Nat
  idx : List Nat
deriving DecidableEq

/-- `path_set_build`: none when an end of the array is not a string. -/
def path_set_build (list : PolicyArray) : Option PathSet :=
  if list ≠ [] ∧ (list.head?.join = none ∨ list.getLast?.join = none) then none
  else
    let keys := list.map bucket_of
    some {
      count := list.length
      first_copy := list.head?.join
      last_copy := list.getLast?.join
      off := offsets (tally (PATH_BUCKETS + 1) keys)
      idx := place (PATH_BUCKETS + 1) keys }

def path_set_valid (set : PathSet) (list : PolicyArray) : Bool :=
  if set.count ≠ list.length then false
  else if list = [] then true
  else
    match list.head?.join, list.getLast?.join, set.first_copy, set.last_copy with
    | some first, some last, some first_copy, some last_copy => first == first_copy && last == last_copy
    | _, _, _, _ => false

def entry_matches (path_arg : Bytes) (e : Option Bytes) : Bool := e.any (path_matches path_arg)

def bucket_contains (set : PathSet) (list : PolicyArray) (path_arg : Bytes) (b : Nat) : Bool :=
  (segment set.off set.idx b).any fun i => entry_matches path_arg (list.getD i none)

def set_contains (set : PathSet) (list : PolicyArray) (path_arg : Bytes) : Bool :=
  bucket_contains set list path_arg ((first_comp_hash path_arg).toNat % PATH_BUCKETS) ||
    bucket_contains set list path_arg PATH_BUCKETS

def walk (path_arg : Bytes) (list : PolicyArray) : Bool := list.any (entry_matches path_arg)

def fresh_contains (path_arg : Bytes) (list : PolicyArray) : Bool :=
  match path_set_build list with
  | some set => set_contains set list path_arg
  | none => walk path_arg list

structure PathSets where
  slots : List (Option (Nat × PathSet))
  next : Nat

def PathSets.empty : PathSets := ⟨List.replicate PATH_SETS_MAX none, 0⟩

def registry_hit (g : PathSets) (arr : Nat) (list : PolicyArray) : Option PathSet :=
  g.slots.findSome? fun slot =>
    slot.bind fun x => if x.1 = arr ∧ path_set_valid x.2 list = true then some x.2 else none

def list_contains (g : PathSets) (arr : Nat) (list : PolicyArray) (path_arg : Bytes) : Bool × PathSets :=
  match registry_hit g arr list with
  | some set => (set_contains set list path_arg, g)
  | none =>
    match path_set_build list with
    | none => (walk path_arg list, g)
    | some set =>
      (set_contains set list path_arg,
        { slots := g.slots.set g.next (some (arr, set)), next := (g.next + 1) % PATH_SETS_MAX })

structure Lookup where
  arr : Nat
  list : PolicyArray
  path_arg : Bytes

def list_contains_run : PathSets → List Lookup → List Bool
  | _, [] => []
  | g, q :: qs =>
    let r := list_contains g q.arr q.list q.path_arg
    r.1 :: list_contains_run r.2 qs

end Retrace.Core
