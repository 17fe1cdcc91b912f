import Retrace.Profiler.Aggregate
import Mathlib.Data.List.Sort

/-!
# Call durations

The other part of `aggregate.c`. The return summaries in a trace give, for each function, the number of calls,
the sum and the greatest of their durations, and a sample of them.
-/

namespace Retrace.Profiler

open CLib Parson

def PROF_TIMING_SAMPLES_MAX : Nat := 4096

inductive Total where
  | finite (q : ℚ)
  | infinite (negative : Bool)
  deriving DecidableEq, Repr

def Total.add : Total → ℚ → Total
  | .finite q, us =>
    if |q + us| < 2 ^ (1024 : ℤ) - 2 ^ (970 : ℤ) then .finite (roundDouble (q + us)) else .infinite (q + us < 0)
  | .infinite negative, _ => .infinite negative

def Total.gt : Total → Total → Bool
  | .finite a, .finite b => b < a
  | .finite _, .infinite negative => negative
  | .infinite negative, .finite _ => !negative
  | .infinite negative, .infinite negative' => !negative && negative'

structure ProfTiming where
  func : Bytes
  calls : Nat := 0
  total_us : Total := .finite 0
  max_us : ℚ := 0
  samples : List ℚ := []
  deriving DecidableEq, Repr

def ProfTiming.record (t : ProfTiming) (us : ℚ) : ProfTiming :=
  { t with
    calls := t.calls + 1
    total_us := t.total_us.add us
    max_us := if t.max_us < us then us else t.max_us
    samples := if t.samples.length < PROF_TIMING_SAMPLES_MAX then t.samples ++ [us] else t.samples }

def prof_timing_add (timings : List ProfTiming) (func : Bytes) (us : ℚ) : List ProfTiming :=
  match bsearch ProfTiming.func timings func with
  | .found i => timings.modify i (·.record us)
  | .missing i => timings.insertIdx i (({ func } : ProfTiming).record us)

def add_summary (timings : List ProfTiming) (msg : JsonObject) : List ProfTiming :=
  match json_object_get_string (some msg) (bytes "func") with
  | none | some [] => timings
  | some func => prof_timing_add timings func (json_object_get_number (some msg) (bytes "call_duration_us"))

def timing_add_entry (timings : List ProfTiming) (entry : Option JsonObject) : List ProfTiming :=
  match json_object_get_object entry (bytes "message") with
  | none => timings
  | some msg =>
    if (json_object_get_string (some msg) (bytes "text")).isSome then timings
    else if (json_object_get_value (some msg) (bytes "call_duration_us")).isSome then add_summary timings msg
    else timings

def prof_timing_p99 (t : ProfTiming) : ℚ :=
  let cnt := t.samples.length
  let idx := if 100 ≤ cnt then cnt - cnt / 100 else cnt - 1
  (t.samples.insertionSort (· ≤ ·)).getD idx 0

def best_index (items : List ProfTiming) : Nat :=
  (List.range items.length).foldl (fun best j =>
    match items[j]?, items[best]? with
    | some a, some b => if a.total_us.gt b.total_us then j else best
    | _, _ => best) 0

/-- The selection sort over the first `n` positions: the greatest of the rest is exchanged with the first. -/
def top_timings : Nat → List ProfTiming → List ProfTiming
  | 0, _ => []
  | _ + 1, [] => []
  | n + 1, t :: ts =>
    match best_index (t :: ts) with
    | 0 => t :: top_timings n ts
    | k + 1 =>
      match ts[k]? with
      | some best => best :: top_timings n (ts.set k t)
      | none => t :: top_timings n ts

end Retrace.Profiler
