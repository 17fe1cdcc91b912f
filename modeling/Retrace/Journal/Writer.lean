import Retrace.CLib.Stdio
import Retrace.Json.Parson

/-!
# The journal: writing

The writing half of `journal.c`: one hash-chained JSON line per event, buffered or flushed by class,
rotation of the live segment by size or age, and retention of closed segments under a byte budget.

The functions take and return the state they change. `World.written` is not in the program: it
remembers every line that went to a stream, oldest first.
-/

namespace Retrace.Retraced

open CLib

/-- `struct retraced_journal`. -/
structure Journal where
  path : Bytes := []
  prev_hash : UInt64 := 0
  lines : UInt64 := 0
  replay_ok : Nat := 0
  replay_events : Nat := 0
  /-- The first line that did not verify, -1 when all did. -/
  chain_broken_at : Int := 0
  /-- The writer's stream, `none` before the first append. -/
  f : Option FILE := none
  clean_close : Bool := false
  base : Bytes := []
  rotate_bytes : Nat := 0
  rotate_seconds : Int := 0
  budget_bytes : Nat := 0
  seg_bytes : Nat := 0
  last_rotate_ts : Int := 0
  segment_seq : Nat := 0
  rotating : Bool := false

structure World where
  fs : FS
  written : List Bytes := []

def fnv1a (s : Bytes) (h : UInt64) : UInt64 :=
  s.foldl (fun h c => (h ^^^ c.toUInt64) * 0x01000193) h

/-- `retraced_journal_line_hash`: the chain link of a line behind the link `prev`. -/
def retraced_journal_line_hash (line : Bytes) (prev : UInt64) : UInt64 :=
  fnv1a line (prev ^^^ 0x9e3779b97f4a7c15)

def durable_classes : List Bytes :=
  [bytes "\"name\":\"retrace.auth.", bytes "\"name\":\"retrace.policy.",
   bytes "\"name\":\"retrace.session.", bytes "\"name\":\"retrace.journal.",
   bytes "\"name\":\"retrace.ctl.", bytes "\"name\":\"retrace.trace.",
   bytes "\"name\":\"retrace.drift.", bytes "\"applied\":"]

def payload_is_durable : Option Bytes → Bool
  | none => false
  | some payload => durable_classes.any fun c => (strstr (cstr payload) c).isSome

def journal_line (ts : Int64) (agent_id : Bytes) (seq prev_hash : UInt64) (payload : Option Bytes) :
    Bytes :=
  bytes "\x7b\"ts\":" ++ fmtInt ts.toInt ++ bytes ",\"agent\":\"" ++ cstr agent_id ++
    bytes "\",\"seq\":" ++ fmtNat seq.toNat ++ bytes ",\"prev\":\"" ++ fmtHex16 prev_hash ++
    bytes "\",\"ev\":" ++ cstr (payload.getD (bytes "\x7b\x7d")) ++ bytes "\x7d\n"

/-- `journal_writer`: the stream is opened on the first append. -/
def journal_writer (fs : FS) (j : Journal) : FS × FILE :=
  match j.f with
  | some f => (fs, f)
  | none => fopenAppend fs j.path

/-- `retraced_journal_event` up to the rotation check; `none` is the return value -1 for a line that
does not fit the buffer. -/
def journal_append (w : World) (j : Journal) (ts : Int64) (agent_id : Bytes) (seq : UInt64)
    (payload : Option Bytes) : Option (World × Journal) :=
  let line := journal_line ts agent_id seq j.prev_hash payload
  if 2048 ≤ line.length then none
  else
    let link := retraced_journal_line_hash line j.prev_hash
    let (fs, f) := journal_writer w.fs j
    let f := fputs f line
    let (fs, f) := if payload_is_durable payload then fflush fs f else (fs, f)
    some ({ fs := fs, written := w.written ++ [line] },
      { j with
        f := some f
        prev_hash := link
        lines := j.lines + 1
        seg_bytes := j.seg_bytes + line.length })

def journal_append_void (w : World) (j : Journal) (ts : Int64) (agent_id : Bytes) (seq : UInt64)
    (payload : Option Bytes) : World × Journal :=
  (journal_append w j ts agent_id seq payload).getD (w, j)

def daemon_id : Bytes := bytes "daemon"

def retraced_journal_segment_path (base : Bytes) (seq cap : Nat) : Bytes :=
  snprintf cap (base ++ bytes "." ++ fmtNat4 seq)

def segment_file (base : Bytes) (seq : Nat) : Path := retraced_journal_segment_path base seq 600

def segment_exists (fs : FS) (base : Bytes) (seq : Nat) : Bool := (fs (segment_file base seq)).isSome

/-- `retraced_journal_segment_lo`: the lowest existing segment up to `hi`. -/
def retraced_journal_segment_lo (fs : FS) (base : Bytes) (hi : Nat) : Option Nat :=
  (List.range (hi + 1)).find? (segment_exists fs base)

def segment_hi (fs : FS) (base : Bytes) : Nat → Option Nat
  | 0 => none
  | n + 1 => if segment_exists fs base n then some n else segment_hi fs base n

def retraced_journal_segment_range (fs : FS) (base : Bytes) : Option (Nat × Nat) := do
  let hi ← segment_hi fs base 10000
  let lo ← retraced_journal_segment_lo fs base hi
  some (lo, hi)

def segment_pruned_text (segment : Bytes) (size : Int64) : Bytes :=
  bytes "\x7b\"name\":\"retrace.journal.segment_pruned\",\"segment\":\"" ++ cstr segment ++
    bytes "\",\"bytes\":" ++ fmtInt size.toInt ++ bytes "\x7d"

def segment_closed_text (closed : Bytes) (head lines : UInt64) : Bytes :=
  bytes "\x7b\"name\":\"retrace.journal.segment_closed\",\"segment\":\"" ++ cstr closed ++
    bytes "\",\"head\":\"" ++ fmtHex16 head ++ bytes "\",\"lines\":" ++ fmtNat lines.toNat ++
    bytes "\x7d"

def segment_opened_text (opened closed : Bytes) (head : UInt64) : Bytes :=
  bytes "\x7b\"name\":\"retrace.journal.segment_opened\",\"segment\":\"" ++ cstr opened ++
    bytes "\",\"prev_segment\":\"" ++ cstr closed ++ bytes "\",\"prev_head\":\"" ++ fmtHex16 head ++
    bytes "\"\x7d"

def closed_bytes (fs : FS) (j : Journal) (lo : Nat) : Nat :=
  ((List.range' lo (j.segment_seq - lo)).map fun seq =>
    ((fs (segment_file j.base seq)).map List.length).getD 0).sum

def prune_next (fs : FS) (j : Journal) : Option (Nat × Bytes) :=
  match retraced_journal_segment_lo fs j.base j.segment_seq with
  | none => none
  | some lo =>
    if j.segment_seq ≤ lo then none
    else if closed_bytes fs j lo ≤ j.budget_bytes then none
    else (fs (segment_file j.base lo)).map fun content => (lo, content)

def journal_retain_loop (ts : Int64) : Nat → World → Journal → World × Journal
  | 0, w, j => (w, j)
  | n + 1, w, j =>
    match prune_next w.fs j with
    | none => (w, j)
    | some (lo, content) =>
      let w := { w with fs := removeFile w.fs (segment_file j.base lo) }
      let ev := snprintf 256 (segment_pruned_text (segment_file j.base lo) (Int64.ofNat content.length))
      let (w, j) := journal_append_void w j ts daemon_id 0 (some ev)
      journal_retain_loop ts n w j

/-- `journal_retain`. Every round but the last removes one segment below the live one, so the bound
is never reached. -/
def journal_retain (w : World) (j : Journal) (ts : Int64) : World × Journal :=
  if j.budget_bytes = 0 then (w, j) else journal_retain_loop ts (j.segment_seq + 1) w j

def close_stream (w : World) (j : Journal) : World :=
  match j.f with
  | some f => { w with fs := fclose w.fs f }
  | none => w

def Journal.next_segment (j : Journal) (ts : Int64) : Journal :=
  { j with
    segment_seq := j.segment_seq + 1
    path := retraced_journal_segment_path j.base (j.segment_seq + 1) 512
    f := none
    seg_bytes := 0
    lines := 0
    last_rotate_ts := ts.toInt }

/-- The first part of `journal_rotate`: the close marker of the live segment. From here on `rotating`
is set, which turns the events it writes into plain appends. -/
def rotate_closing (w : World) (j : Journal) (ts : Int64) : World × Journal :=
  journal_append_void w { j with rotating := true } ts daemon_id 0
    (some (snprintf 512 (segment_closed_text (segment_file j.base j.segment_seq) j.prev_hash j.lines)))

def rotate_next (w : World) (j : Journal) (ts : Int64) : World × Journal :=
  let (w, j) := rotate_closing w j ts
  (close_stream w j, j.next_segment ts)

def journal_rotate (w : World) (j : Journal) (ts : Int64) : World × Journal :=
  let head := j.prev_hash
  let closed := segment_file j.base j.segment_seq
  let opened := segment_file j.base (j.segment_seq + 1)
  let (w, j) := rotate_next w j ts
  let (w, j) := journal_retain w j ts
  let (w, j) := journal_append_void w j ts daemon_id 0
    (some (snprintf 512 (segment_opened_text opened closed head)))
  (w, { j with rotating := false })

def Journal.rotates (j : Journal) : Bool := j.rotate_bytes ≠ 0 || j.rotate_seconds ≠ 0

def Journal.due (j : Journal) (ts : Int64) : Bool :=
  !j.rotating && j.rotates &&
    ((j.rotate_bytes ≠ 0 && j.rotate_bytes ≤ j.seg_bytes) ||
     (j.rotate_seconds ≠ 0 && j.rotate_seconds ≤ ts.toInt - j.last_rotate_ts))

/-- `retraced_journal_event`: 0, or -1 when the line does not fit. -/
def retraced_journal_event (w : World) (j : Journal) (ts : Int64) (agent_id : Bytes) (seq : UInt64)
    (payload : Option Bytes) : Int × World × Journal :=
  match journal_append w j ts agent_id seq payload with
  | none => (-1, w, j)
  | some (w, j) => if j.due ts then (0, journal_rotate w j ts) else (0, w, j)

def retraced_journal_flush (w : World) (j : Journal) : World × Journal :=
  match j.f with
  | some f =>
    let (fs, f) := fflush w.fs f
    ({ w with fs := fs }, { j with f := some f })
  | none => (w, j)

def journal_closed_record : Bytes := bytes "\x7b\"name\":\"retrace.journal.closed\"\x7d"

def retraced_journal_close (w : World) (j : Journal) (now : Int64) : World × Journal :=
  let s := (retraced_journal_event w j now daemon_id 0 (some journal_closed_record)).2
  (close_stream s.1 s.2, { s.2 with f := none, clean_close := true })

def retraced_journal_open (path : Bytes) : Journal :=
  { path := snprintf 512 (cstr path)
    base := snprintf 512 (cstr path)
    chain_broken_at := -1 }

/-- The live segment that `retraced_journal_set_rotation` resolves: it counts up from `seq` while the
next segment exists, at most `n` times. -/
def resolve_segment (fs : FS) (base : Bytes) : Nat → Nat → Nat
  | 0, seq => seq
  | n + 1, seq => if segment_exists fs base (seq + 1) then resolve_segment fs base n (seq + 1) else seq

/-- The arguments of `retraced_journal_set_rotation`. -/
structure Rotation where
  rotate_bytes : Nat := 0
  rotate_seconds : Int := 0
  budget_bytes : Nat := 0

def Rotation.enabled (rot : Rotation) : Bool := rot.rotate_bytes ≠ 0 || rot.rotate_seconds ≠ 0

def retraced_journal_set_rotation (fs : FS) (j : Journal) (rot : Rotation) (now : Int64) : Journal :=
  let j := { j with
    rotate_bytes := rot.rotate_bytes
    rotate_seconds := rot.rotate_seconds
    budget_bytes := rot.budget_bytes
    seg_bytes := 0
    last_rotate_ts := now.toInt }
  if rot.enabled then
    let seq := resolve_segment fs j.base 9999 0
    { j with segment_seq := seq, path := retraced_journal_segment_path j.base seq 512 }
  else j

end Retrace.Retraced
