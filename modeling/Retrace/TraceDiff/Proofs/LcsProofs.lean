import Retrace.TraceDiff.Lcs
import Retrace.Subsequence.Subsequence
import Mathlib.Data.List.GetD

/-!
# The order diff is a best alignment

The table holds the lengths of longest common subsequences (`entry_table`), and each step of the walk takes
one item off the end of a best alignment of what is in front of it.
-/

namespace Retrace.TraceDiff

open CLib Subsequence List

variable {a b : List Bytes} {i j : Nat}

/-- The entries of a row behind `front`, when `xs` is the row's beginning of the first trace, last name first. -/
def tailRow (xs : List Bytes) : List Bytes → List Bytes → List Nat
  | _, [] => []
  | front, y :: rest => lcs xs (y :: front) :: tailRow xs (y :: front) rest

def row (xs b : List Bytes) : List Nat := 0 :: tailRow xs [] b

theorem lcs_row_loop_eq (x : Bytes) (xs front rest : List Bytes) :
    lcs_row_loop x rest (lcs xs front) (tailRow xs front rest) (lcs (x :: xs) front) =
      tailRow (x :: xs) front rest := by
  induction rest generalizing front with
  | nil => rfl
  | cons y rest ih =>
    have hentry : (if x = y then lcs xs front + 1
        else if lcs (x :: xs) front < lcs xs (y :: front) then lcs xs (y :: front) else lcs (x :: xs) front) =
        lcs (x :: xs) (y :: front) := by
      rw [lcs_cons]
      split_ifs with heq hlt
      · rfl
      · exact (max_eq_left hlt.le).symm
      · exact (max_eq_right (not_lt.mp hlt)).symm
    rw [tailRow, lcs_row_loop, hentry, ih, tailRow]

theorem lcs_row_eq : lcs_row b (row xs b) x = row (x :: xs) b := by
  have h := lcs_row_loop_eq x xs [] b
  rw [lcs_nil_right, lcs_nil_right] at h
  rw [row, lcs_row, headD_cons, tail_cons, h, row]

theorem tailRow_nil : tailRow [] front rest = replicate rest.length 0 := by
  induction rest generalizing front with
  | nil => rfl
  | cons y rest ih => rw [tailRow, lcs_nil_left, ih, length_cons, replicate_succ]

theorem tailRow_getD (xs front rest : List Bytes) (hj : j < rest.length) :
    (tailRow xs front rest).getD j 0 = lcs xs ((rest.take (j + 1)).reverse ++ front) := by
  induction rest generalizing front j with
  | nil => simp at hj
  | cons y rest ih =>
    cases j with
    | zero => simp [tailRow]
    | succ j =>
      rw [tailRow, getD_cons_succ, ih _ (by simpa using hj)]
      simp

theorem row_getD (hj : j ≤ b.length) : (row xs b).getD j 0 = lcs xs (b.take j).reverse := by
  cases j with
  | zero => simp [row]
  | succ j => rw [row, getD_cons_succ, tailRow_getD _ _ _ hj, append_nil]

theorem table_getD (xs a b : List Bytes) (hi : i ≤ a.length) :
    (a.scanl (lcs_row b) (row xs b)).getD i [] = row ((a.take i).reverse ++ xs) b := by
  induction a generalizing xs i with
  | nil =>
    obtain rfl : i = 0 := by simpa using hi
    simp
  | cons x a ih =>
    cases i with
    | zero => simp
    | succ i =>
      rw [scanl_cons, getD_cons_succ, lcs_row_eq, ih _ (by simpa using hi)]
      simp

theorem entry_table (hi : i ≤ a.length) (hj : j ≤ b.length) :
    entry (lcs_build_table a b) i j = lcs (a.take i).reverse (b.take j).reverse := by
  have hfirst : replicate (b.length + 1) 0 = row [] b := by
    rw [row, tailRow_nil, replicate_succ]
  rw [entry, lcs_build_table, hfirst, table_getD [] a b hi, append_nil, row_getD hj]

def names (types : List DiffLcsType) (items : List DiffLcsItem) : List Bytes :=
  (items.filter fun x => x.type ∈ types).map DiffLcsItem.name

theorem names_cons :
    names types (x :: items) = if x.type ∈ types then x.name :: names types items else names types items := by
  rw [names, filter_cons]
  split_ifs with h1 h2 h2
  · rfl
  · exact absurd (by simpa using h1) h2
  · exact absurd (by simpa using h2) h1
  · rfl

def DiffLcsItem.toItem (x : DiffLcsItem) : Item Bytes :=
  match x.type with
  | .DIFF_LCS_MATCH => .both x.name
  | .DIFF_LCS_DELETE => .first x.name
  | .DIFF_LCS_INSERT => .second x.name

theorem filterMap_toItem :
    (items.map DiffLcsItem.toItem).filterMap Item.left? = names [.DIFF_LCS_MATCH, .DIFF_LCS_DELETE] items ∧
      (items.map DiffLcsItem.toItem).filterMap Item.right? = names [.DIFF_LCS_MATCH, .DIFF_LCS_INSERT] items ∧
      (items.map DiffLcsItem.toItem).filterMap Item.both? = names [.DIFF_LCS_MATCH] items := by
  induction items with
  | nil => exact ⟨rfl, rfl, rfl⟩
  | cons x items ih =>
    obtain ⟨hleft, hright, hboth⟩ := ih
    obtain ⟨type, name⟩ := x
    cases type <;>
      simp [names_cons, DiffLcsItem.toItem, filterMap_cons, Item.left?, Item.right?, Item.both?,
        hleft, hright, hboth]

/-- The items that are emitted at `i` and `j` are a best alignment of the two beginnings, from the end. -/
structure Best (a b : List Bytes) (i j : Nat) (items : List DiffLcsItem) : Prop where
  before : names [.DIFF_LCS_MATCH, .DIFF_LCS_DELETE] items = (a.take i).reverse
  after : names [.DIFF_LCS_MATCH, .DIFF_LCS_INSERT] items = (b.take j).reverse
  matches_ : (names [.DIFF_LCS_MATCH] items).length = lcs (a.take i).reverse (b.take j).reverse

theorem reverse_take_succ (hi : i < a.length) : (a.take (i + 1)).reverse = a.getD i [] :: (a.take i).reverse := by
  rw [take_add_one, getElem?_eq_getElem hi, getD_eq_getElem _ _ hi]
  simp

/-- A step of the walk back puts its item in front of a best alignment of shorter beginnings. -/
theorem Best.step {items : List DiffLcsItem} (hi : i ≤ a.length) (hj : j ≤ b.length)
    (hstep : diff_lcs_step (lcs_build_table a b) a b i j = some (item, i', j')) (h : Best a b i' j' items) :
    Best a b i j (item :: items) := by
  obtain ⟨hbefore, hafter, hmatches⟩ := h
  cases i with
  | zero =>
    cases j with
    | zero => cases hstep
    | succ j =>
      cases hstep
      refine ⟨?_, ?_, ?_⟩
      · rw [names_cons, if_neg (by simp), hbefore]
      · rw [names_cons, if_pos (by simp), hafter, reverse_take_succ hj]
        rfl
      · rw [names_cons, if_neg (by simp), hmatches]
        simp
  | succ i =>
    cases j with
    | zero =>
      cases hstep
      refine ⟨?_, ?_, ?_⟩
      · rw [names_cons, if_pos (by simp), hbefore, reverse_take_succ hi]
        rfl
      · rw [names_cons, if_neg (by simp), hafter]
      · rw [names_cons, if_neg (by simp), hmatches]
        simp
    | succ j =>
      rw [diff_lcs_step, if_pos ⟨i.succ_pos, j.succ_pos⟩, Nat.add_sub_cancel, Nat.add_sub_cancel,
        entry_table (by omega) (by omega), entry_table (by omega) (by omega), reverse_take_succ hi,
        reverse_take_succ hj] at hstep
      split_ifs at hstep with hmatch hdelete
      · cases hstep
        refine ⟨?_, ?_, ?_⟩
        · rw [names_cons, if_pos (by simp), hbefore, reverse_take_succ hi]
        · rw [names_cons, if_pos (by simp), hafter, reverse_take_succ hj, ← hmatch]
        · rw [names_cons, if_pos (by simp), length_cons, hmatches, reverse_take_succ hi, reverse_take_succ hj,
            lcs_cons, if_pos hmatch]
      · cases hstep
        refine ⟨?_, ?_, ?_⟩
        · rw [names_cons, if_pos (by simp), hbefore, reverse_take_succ hi]
        · rw [names_cons, if_neg (by simp), hafter]
        · rw [reverse_take_succ hj] at hmatches
          rw [names_cons, if_neg (by simp), hmatches, reverse_take_succ hi, reverse_take_succ hj, lcs_cons,
            if_neg hmatch, max_eq_left hdelete]
      · cases hstep
        refine ⟨?_, ?_, ?_⟩
        · rw [names_cons, if_neg (by simp), hbefore]
        · rw [names_cons, if_pos (by simp), hafter, reverse_take_succ hj]
        · rw [reverse_take_succ hi] at hmatches
          rw [names_cons, if_neg (by simp), hmatches, reverse_take_succ hi, reverse_take_succ hj, lcs_cons,
            if_neg hmatch, max_eq_right (not_le.mp hdelete).le]

theorem diff_lcs_step_none (h : diff_lcs_step dp a b i j = none) : i = 0 ∧ j = 0 := by
  unfold diff_lcs_step at h
  split_ifs at h
  omega

theorem diff_lcs_step_lt (h : diff_lcs_step dp a b i j = some (item, i', j')) :
    i' ≤ i ∧ j' ≤ j ∧ i' + j' < i + j := by
  unfold diff_lcs_step at h
  split_ifs at h with hboth hmatch hdelete hfirst hsecond <;> cases h <;> omega

theorem diff_lcs_walk_loop_best (fuel : Nat) (hi : i ≤ a.length) (hj : j ≤ b.length)
    (hfuel : i + j ≤ fuel) (emitted : List DiffLcsItem) :
    ∃ items, diff_lcs_walk_loop (fun _ => false) (lcs_build_table a b) a b fuel i j emitted = emitted ++ items ∧
      Best a b i j items := by
  have hnone : Best a b 0 0 [] := ⟨rfl, rfl, by simp [names]⟩
  induction fuel generalizing i j emitted with
  | zero =>
    obtain ⟨rfl, rfl⟩ : i = 0 ∧ j = 0 := by omega
    exact ⟨[], by simp [diff_lcs_walk_loop], hnone⟩
  | succ fuel ih =>
    rw [diff_lcs_walk_loop]
    cases hstep : diff_lcs_step (lcs_build_table a b) a b i j with
    | none =>
      obtain ⟨rfl, rfl⟩ := diff_lcs_step_none hstep
      exact ⟨[], by simp, hnone⟩
    | some x =>
      obtain ⟨item, i', j'⟩ := x
      obtain ⟨hi', hj', hlt⟩ := diff_lcs_step_lt hstep
      obtain ⟨items, hloop, hbest⟩ := ih (hi'.trans hi) (hj'.trans hj) (by omega) (emitted ++ [item])
      refine ⟨item :: items, ?_, hbest.step hi hj hstep⟩
      simp only [Bool.false_eq_true, if_false, hloop]
      simp

theorem diff_lcs_walk_best (a b : List Bytes) :
    Best a b a.length b.length (diff_lcs_walk (fun _ => false) a b) := by
  rw [diff_lcs_walk]
  split_ifs with hnil
  · obtain ⟨rfl, rfl⟩ := hnil
    exact ⟨rfl, rfl, by simp [names]⟩
  · obtain ⟨items, hloop, hbest⟩ := diff_lcs_walk_loop_best (a.length + b.length) le_rfl le_rfl le_rfl []
    rwa [hloop, nil_append]

theorem diff_lcs_len_eq : diff_lcs_len a b = lcs a.reverse b.reverse := by
  rw [diff_lcs_len]
  split_ifs with hnil
  · rcases hnil with rfl | rfl
    · simp
    · simp
  · rw [entry_table le_rfl le_rfl, take_length, take_length]

theorem names_reverse : names types items.reverse = (names types items).reverse := by
  rw [names, names, filter_reverse, map_reverse]

/-- The items, the other way round, spell both traces, and as many of them match as the longest common
subsequence has names. -/
theorem diff_lcs_walk_minimal (a b : List Bytes) :
    names [.DIFF_LCS_MATCH, .DIFF_LCS_DELETE] (diff_lcs_walk (fun _ => false) a b).reverse = a ∧
      names [.DIFF_LCS_MATCH, .DIFF_LCS_INSERT] (diff_lcs_walk (fun _ => false) a b).reverse = b ∧
      (names [.DIFF_LCS_MATCH] (diff_lcs_walk (fun _ => false) a b).reverse).length = diff_lcs_len a b ∧
      IsGreatest {n | ∃ s : List Bytes, s.Sublist a ∧ s.Sublist b ∧ s.length = n} (diff_lcs_len a b) := by
  obtain ⟨hbefore, hafter, hmatches⟩ := diff_lcs_walk_best a b
  rw [take_length] at hbefore hafter hmatches
  rw [take_length, ← diff_lcs_len_eq] at hmatches
  have hspellsA : names [.DIFF_LCS_MATCH, .DIFF_LCS_DELETE] (diff_lcs_walk (fun _ => false) a b).reverse = a := by
    rw [names_reverse, hbefore, reverse_reverse]
  have hspellsB : names [.DIFF_LCS_MATCH, .DIFF_LCS_INSERT] (diff_lcs_walk (fun _ => false) a b).reverse = b := by
    rw [names_reverse, hafter, reverse_reverse]
  have hlen : (names [.DIFF_LCS_MATCH] (diff_lcs_walk (fun _ => false) a b).reverse).length =
      diff_lcs_len a b := by
    rw [names_reverse, length_reverse, hmatches]
  refine ⟨hspellsA, hspellsB, hlen, ?_, ?_⟩
  · obtain ⟨hleft, hright, hboth⟩ := filterMap_toItem
    obtain ⟨hsubA, hsubB⟩ := Aligns.sublist ⟨hleft.trans hspellsA, hright.trans hspellsB⟩
    rw [hboth] at hsubA hsubB
    exact ⟨_, hsubA, hsubB, hlen⟩
  · rintro n ⟨s, hsA, hsB, rfl⟩
    rw [diff_lcs_len_eq, ← length_reverse]
    exact length_le_lcs (reverse_sublist.mpr hsA) (reverse_sublist.mpr hsB)

example : (diff_lcs_walk (fun _ => false) [bytes "open", bytes "read", bytes "close"]
    [bytes "open", bytes "close", bytes "exit"]).reverse =
      [⟨.DIFF_LCS_MATCH, bytes "open"⟩, ⟨.DIFF_LCS_DELETE, bytes "read"⟩, ⟨.DIFF_LCS_MATCH, bytes "close"⟩,
        ⟨.DIFF_LCS_INSERT, bytes "exit"⟩] := by
  decide

end Retrace.TraceDiff
