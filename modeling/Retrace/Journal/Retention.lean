import Retrace.Journal.Series

/-!
# What retention is for

The closed segments are to fit a budget. `Retained` says what `journal_retain` is to do: the shortest
run of oldest segments is removed whose absence makes the others fit, each removal leaves one record in
the live segment, and nothing else changes.
-/

namespace Retrace.Retraced

open CLib

def closed_segments (fs : FS) (j : Journal) : List Nat :=
  (List.range j.segment_seq).filter (segment_exists fs j.base)

def segment_size (fs : FS) (base : Bytes) (n : Nat) : Nat :=
  ((fs (segment_file base n)).map List.length).getD 0

def total_size (fs : FS) (base : Bytes) (ns : List Nat) : Nat := (ns.map (segment_size fs base)).sum

def excess (fs : FS) (base : Bytes) (budget : Nat) : List Nat → Nat
  | [] => 0
  | n :: ns => if total_size fs base (n :: ns) ≤ budget then 0 else excess fs base budget ns + 1

def surplus (fs : FS) (j : Journal) : List Nat :=
  (closed_segments fs j).take (excess fs j.base j.budget_bytes (closed_segments fs j))

def prune_text (fs : FS) (base : Bytes) (n : Nat) : Bytes :=
  segment_pruned_text (segment_file base n) (Int64.ofNat (segment_size fs base n))

def chained_lines (ts : Int64) : UInt64 → List Bytes → List Bytes
  | _, [] => []
  | h, p :: ps =>
    let line := journal_line ts daemon_id 0 h (some p)
    line :: chained_lines ts (retraced_journal_line_hash line h) ps

def live_content (fs : FS) (j : Journal) : Bytes :=
  match j.f with
  | some f => (f.full fs).getD []
  | none => (fs j.path).getD []

/-- The live segment of a journal that rotates, as `retraced_journal_set_rotation` and `journal_rotate`
leave it: the names come from C strings in buffers of 512 bytes, the number is an `int`, and a stream
that is open belongs to the file. -/
structure LiveSegment (fs : FS) (j : Journal) : Prop where
  base_len : j.base.length < 512
  base_nul : 0 ∉ j.base
  seq_lt : j.segment_seq < 2 ^ 31
  path : j.path = retraced_journal_segment_path j.base j.segment_seq 512
  stream : ∀ f ∈ j.f, f.path = j.path ∧ (fs f.path).isSome = true

/-- The `k` oldest closed segments were removed with records that have the payloads `texts`. -/
structure Retained (ts : Int64) (texts : List Bytes) (w : World) (j : Journal) (w' : World) (j' : Journal)
    (k : Nat) : Prop where
  fits : total_size w.fs j.base ((closed_segments w.fs j).drop k) ≤ j.budget_bytes
  least : ∀ i < k, j.budget_bytes < total_size w.fs j.base ((closed_segments w.fs j).drop i)
  removed : ∀ n ∈ (closed_segments w.fs j).take k, w'.fs (segment_file j.base n) = none
  others : ∀ p, p ≠ j.path → (∀ n ∈ (closed_segments w.fs j).take k, p ≠ segment_file j.base n) →
    w'.fs p = w.fs p
  same_seq : j'.segment_seq = j.segment_seq
  same_path : j'.path = j.path
  live_kept : (w.fs j.path).isSome = true → (w'.fs j.path).isSome = true
  live : live_content w'.fs j' = live_content w.fs j ++ (chained_lines ts j.prev_hash texts).flatten
  written : w'.written = w.written ++ chained_lines ts j.prev_hash texts
  head : j'.prev_hash =
    (chained_lines ts j.prev_hash texts).foldl (fun h l => retraced_journal_line_hash l h) j.prev_hash

end Retrace.Retraced
