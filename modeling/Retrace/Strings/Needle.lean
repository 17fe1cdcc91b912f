import Retrace.Runs.Runs
import Mathlib.Data.List.Infix

/-!
# Searching for a word

A word whose first letter does not occur in it again is searched for by counting how many of its letters
stand at the end of what was read. A text keeps free of the word as long as the count stays below the length,
and texts are put together by running the count over their parts.
-/

namespace Needle

open Runs

variable {α : Type*} [DecidableEq α]

def feed (pat : List α) (k : Nat) (c : α) : Nat :=
  if pat.length ≤ k then k
  else if pat[0]? = some c then 1
  else if pat[k]? = some c then k + 1 else 0

variable {pat : List α}

theorem run_feed_of_found (h : pat.length ≤ k) (s : List α) : run (feed pat) k s = k := by
  induction s with
  | nil => rfl
  | cons c s ih => rw [run_cons, feed, if_pos h, ih]

theorem run_feed_lt_of_append (h : run (feed pat) k (s ++ t) < pat.length) : run (feed pat) k s < pat.length := by
  by_contra hfound
  rw [run_append, run_feed_of_found (by omega)] at h
  omega

theorem run_feed_rest {u v : List α} (ha : a ∉ v) :
    run (feed (a :: (u ++ v))) (u.length + 1) v = (a :: (u ++ v)).length := by
  induction v generalizing u with
  | nil => simp
  | cons c v ih =>
    have hne : a ≠ c := fun h => ha (h ▸ List.mem_cons_self)
    have hstep : feed (a :: (u ++ c :: v)) (u.length + 1) c = (u ++ [c]).length + 1 := by
      simp [feed, hne]
    have hrest := ih (u := u ++ [c]) fun h => ha (List.mem_cons_of_mem c h)
    rw [run_cons, hstep]
    simpa using hrest

theorem run_feed_word {v : List α} (ha : a ∉ v) (hk : k < (a :: v).length) :
    run (feed (a :: v)) k (a :: v) = (a :: v).length := by
  have hstep : feed (a :: v) k a = 1 := by
    rw [feed, if_neg (by omega)]
    simp
  rw [run_cons, hstep]
  exact run_feed_rest (u := []) ha

theorem not_infix {v s : List α} (ha : a ∉ v) (h : run (feed (a :: v)) k s < (a :: v).length) :
    ¬ a :: v <:+: s := by
  rintro ⟨p, q, rfl⟩
  have hword := run_feed_lt_of_append h
  have hp := run_feed_lt_of_append hword
  rw [run_append, run_feed_word ha hp] at hword
  omega

end Needle
