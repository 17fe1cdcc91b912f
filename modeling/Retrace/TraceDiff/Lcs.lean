import Retrace.CLib.CString

/-!
# The order diff

`lcs.c` of `trace-diff`: the table of the lengths of longest common subsequences of all pairs of beginnings of
two traces, and the walk back through it, which tells the callback the items of an alignment, the last first.
The table is kept as its rows. Allocation succeeds.
-/

namespace Retrace.TraceDiff

open CLib

inductive DiffLcsType where
  | DIFF_LCS_MATCH
  | DIFF_LCS_DELETE
  | DIFF_LCS_INSERT
  deriving DecidableEq, Repr

structure DiffLcsItem where
  type : DiffLcsType
  name : Bytes
  deriving DecidableEq, Repr

/-- The inner loop of `lcs_build_table` for the name `x`: `diag` and `left` are the entries before in the row
above and in this row, `up` is what is left of the row above. -/
def lcs_row_loop (x : Bytes) : List Bytes → Nat → List Nat → Nat → List Nat
  | y :: b, diag, up :: row, left =>
    let v := if x = y then diag + 1 else if left < up then up else left
    v :: lcs_row_loop x b up row v
  | _, _, _, _ => []

def lcs_row (b : List Bytes) (prev : List Nat) (x : Bytes) : List Nat :=
  0 :: lcs_row_loop x b (prev.headD 0) prev.tail 0

def lcs_build_table (a b : List Bytes) : List (List Nat) := a.scanl (lcs_row b) (List.replicate (b.length + 1) 0)

def entry (dp : List (List Nat)) (i j : Nat) : Nat := (dp.getD i []).getD j 0

def diff_lcs_len (a b : List Bytes) : Nat :=
  if a = [] ∨ b = [] then 0 else entry (lcs_build_table a b) a.length b.length

def diff_lcs_step (dp : List (List Nat)) (a b : List Bytes) (i j : Nat) : Option (DiffLcsItem × Nat × Nat) :=
  if 0 < i ∧ 0 < j then
    if a.getD (i - 1) [] = b.getD (j - 1) [] then some (⟨.DIFF_LCS_MATCH, a.getD (i - 1) []⟩, i - 1, j - 1)
    else if entry dp i (j - 1) ≤ entry dp (i - 1) j then some (⟨.DIFF_LCS_DELETE, a.getD (i - 1) []⟩, i - 1, j)
    else some (⟨.DIFF_LCS_INSERT, b.getD (j - 1) []⟩, i, j - 1)
  else if 0 < i then some (⟨.DIFF_LCS_DELETE, a.getD (i - 1) []⟩, i - 1, j)
  else if 0 < j then some (⟨.DIFF_LCS_INSERT, b.getD (j - 1) []⟩, i, j - 1)
  else none

/-- The three loops of `diff_lcs_walk`. The callback has got the items `emitted`, and `cb` says whether it
stops the walk. -/
def diff_lcs_walk_loop (cb : List DiffLcsItem → Bool) (dp : List (List Nat)) (a b : List Bytes) :
    Nat → Nat → Nat → List DiffLcsItem → List DiffLcsItem
  | 0, _, _, emitted => emitted
  | fuel + 1, i, j, emitted =>
    match diff_lcs_step dp a b i j with
    | none => emitted
    | some (item, i, j) =>
      if cb (emitted ++ [item]) then emitted ++ [item]
      else diff_lcs_walk_loop cb dp a b fuel i j (emitted ++ [item])

/-- `diff_lcs_walk`: the items the callback gets; their number is the result. -/
def diff_lcs_walk (cb : List DiffLcsItem → Bool) (a b : List Bytes) : List DiffLcsItem :=
  if a = [] ∧ b = [] then []
  else diff_lcs_walk_loop cb (lcs_build_table a b) a b (a.length + b.length) a.length b.length []

end Retrace.TraceDiff
