import Retrace.Journal.Writer
import Retrace.Daemon.Registry

/-!
# The journal: reading

The reading half of `journal.c`: the replay at boot (`retraced_journal_replay`), the tail a
controller asks for (`retraced_journal_tail`) and the offline check of one file
(`retraced_journal_chain_file_from`). Each of them reads a file with `fgets` into a buffer of 2048
bytes; a NUL ends what it sees of a line. A `Session` is the journal as `main` drives it over several boots: it is
opened, rotation is set, the history is replayed, events are written, and at shutdown it is closed.
-/

namespace Retrace.Retraced

open CLib Parson

def journal_chunks (content : Bytes) : List Bytes := fgetsAll 2048 content

def toInt32 (n : Nat) : Int := (Int32.ofNat n).toInt

/-- `(uint64_t) -1`: what `journal_replay_file` returns for a broken chain. -/
def broken_head : UInt64 := 0xffffffffffffffff

def close_marker : Bytes := bytes "\"name\":\"retrace.journal.closed\""

inductive ReplayExit where
  | eof
  | torn
  | broken
  deriving DecidableEq, Repr

/-- The variables of `journal_replay_file`. -/
structure ReplayState where
  j : Journal
  r : Registry
  prev : UInt64
  lineno : Nat := 0

/-- The registry after a line that was accepted: its agent is live and has the line's `seq`. -/
def replay_agent (r : Registry) (o : Option JsonObject) : Registry :=
  match json_object_get_string o (bytes "agent") with
  | none => r
  | some agent =>
    let (r, e) := match retraced_registry_find r agent with
      | some i => (r, some i)
      | none => retraced_registry_hello r (some agent)
          (doubleToLong (json_object_get_number o (bytes "pid"))) 0 [] []
    match e with
    | some i => r.modify i ({ · with
        last_seq := doubleToU64 (json_object_get_number o (bytes "seq"))
        state := .live })
    | none => r

def replay_loop : List Bytes → ReplayState → ReplayState × ReplayExit
  | [], s => (s, .eof)
  | chunk :: rest, s =>
    let line := cstr chunk
    let s := { s with lineno := s.lineno + 1 }
    if line.getLast? ≠ some newline then (s, .torn)
    else
      let s := { s with j := { s.j with clean_close := (strstr line close_marker).isSome } }
      match json_parse_string line with
      | none => (s, .torn)
      | some v =>
        let o := json_value_get_object v
        let broken := ({ s with j := { s.j with chain_broken_at := toInt32 s.lineno } },
          ReplayExit.broken)
        match json_object_get_string o (bytes "prev") with
        | none => broken
        | some prev_str =>
          if strtoull16 prev_str ≠ s.prev then broken
          else
            replay_loop rest
              { s with
                r := replay_agent s.r o
                j := { s.j with replay_events := s.j.replay_events + 1 }
                prev := retraced_journal_line_hash line s.prev }

def journal_replay_file (fs : FS) (j : Journal) (r : Registry) (path : Path) (prev : UInt64)
    (last : Bool) : UInt64 × Journal × Registry :=
  match fs path with
  | none => if last then (prev, j, r) else (broken_head, { j with chain_broken_at := 0 }, r)
  | some content =>
    let (s, e) := replay_loop (journal_chunks content) { j := j, r := r, prev := prev }
    if e = .broken then (broken_head, s.j, s.r)
    else
      let n := s.lineno - (if e = .torn then 1 else 0)
      let j := { s.j with replay_ok := s.j.replay_ok + n }
      (s.prev, if last then { j with lines := UInt64.ofNat n } else j, s.r)

def replay_segments (fs : FS) : List Nat → Journal → Registry → UInt64 → UInt64 × Journal × Registry
  | [], j, r, prev => (prev, j, r)
  | seq :: seqs, j, r, prev =>
    let (prev, j, r) :=
      journal_replay_file fs j r (segment_file j.base seq) prev (seq == j.segment_seq)
    if prev = broken_head then (prev, j, r) else replay_segments fs seqs j r prev

/-- The end of `retraced_journal_replay`: the head is taken over unless the chain is broken. -/
def replay_result : UInt64 × Journal × Registry → Int × Journal × Registry
  | (prev, j, r) => if prev = broken_head then (-1, j, r) else (0, { j with prev_hash := prev }, r)

def retraced_journal_replay (fs : FS) (j : Journal) (r : Registry) : Int × Journal × Registry :=
  let j := { j with replay_ok := 0, replay_events := 0, chain_broken_at := -1, clean_close := false }
  if j.rotates then
    match retraced_journal_segment_lo fs j.base j.segment_seq with
    | none => (0, j, r)
    | some lo => replay_result
        (replay_segments fs (List.range' lo (j.segment_seq + 1 - lo)) j r 0)
  else if (fs j.path).isNone then (-1, j, r)
  else replay_result (journal_replay_file fs j r j.path 0 true)

/-- The variables of `retraced_journal_tail`. -/
structure TailState where
  ring : List (Option Bytes)
  prev : UInt64 := 0
  kept : Nat := 0
  ring_i : Nat := 0
  lineno : Nat := 0
  chain_out : Int := 0

/-- The loop of `retraced_journal_tail`; `none` stands for the undefined behaviour of `strtoull` on
the `NULL` that a line without its link gives. -/
def tail_loop (last_n : Nat) : List Bytes → TailState → Option TailState
  | [], s => some s
  | chunk :: rest, s =>
    let line := cstr chunk
    let s := { s with lineno := s.lineno + 1 }
    if line.getLast? ≠ some newline then some s
    else
      match json_parse_string line with
      | none => some s
      | some v =>
        match json_object_get_string (json_value_get_object v) (bytes "prev") with
        | none => none
        | some prev_str =>
          if strtoull16 prev_str ≠ s.prev then some { s with chain_out := s.lineno }
          else
            tail_loop last_n rest
              { s with
                ring := s.ring.set s.ring_i (some line)
                ring_i := (s.ring_i + 1) % last_n
                kept := if s.kept < last_n then s.kept + 1 else s.kept
                prev := retraced_journal_line_hash line s.prev }

def TailState.sunk (last_n : Nat) (s : TailState) : List Bytes :=
  (List.range s.kept).filterMap fun i =>
    (s.ring[if s.kept < last_n then i else (s.ring_i + i) % last_n]?).join

/-- What `retraced_journal_tail` delivers. -/
structure TailResult where
  ret : Int
  sunk : List Bytes
  /-- The first broken line, 0 when there is none. -/
  chain_out : Int

/-- `retraced_journal_tail`; `none` is undefined behaviour. -/
def retraced_journal_tail (fs : FS) (j : Journal) (last_n : Nat) : Option TailResult :=
  match fs j.path with
  | none => some ⟨-1, [], 0⟩
  | some content =>
    let last_n := if last_n = 0 then 1 else last_n
    (tail_loop last_n (journal_chunks content) { ring := List.replicate last_n none }).map fun s =>
      ⟨toInt32 s.kept, s.sunk last_n, s.chain_out⟩

/-- What `retraced_journal_chain_file_from` delivers. -/
structure ChainResult where
  ret : Int
  head_out : UInt64
  lines_out : Nat
  /-- The first broken line, 0 when there is none. -/
  broken_at : Nat
  deriving DecidableEq

def prev_marker : Bytes := bytes "\"prev\":\""

def text_prev (line : Bytes) : Option UInt64 :=
  (strstr line prev_marker).map fun p => strtoull16 ((snprintf 32 (p.drop 8)).take 16)

def chain_loop (stop_at : Nat) : List Bytes → UInt64 → Nat → ChainResult
  | [], prev, lines => ⟨0, prev, lines, 0⟩
  | chunk :: rest, prev, lines =>
    if stop_at ≠ 0 ∧ stop_at ≤ lines then ⟨0, prev, lines, 0⟩
    else
      let line := cstr chunk
      if text_prev line = some prev then
        chain_loop stop_at rest (retraced_journal_line_hash line prev) (lines + 1)
      else ⟨-1, prev, lines + 1, lines + 1⟩

def retraced_journal_chain_file_from (fs : FS) (path : Path) (start_prev : UInt64) (stop_at : Nat) :
    ChainResult :=
  match fs path with
  | none => ⟨-1, 0, 0, 0⟩
  | some content => chain_loop stop_at (journal_chunks content) start_prev 0

def retraced_journal_chain_file (fs : FS) (path : Path) (stop_at : Nat) : ChainResult :=
  retraced_journal_chain_file_from fs path 0 stop_at

structure Session where
  w : World
  j : Journal
  r : Registry
  rc : Int

/-- The journal at boot: opened on `path`, rotation set, history replayed into an empty registry. -/
def journal_boot (path : Bytes) (w : World) (rot : Rotation) (now : Int64) : Session :=
  let j := retraced_journal_set_rotation w.fs (retraced_journal_open path) rot now
  let replayed := retraced_journal_replay w.fs j {}
  { w := w, j := replayed.2.1, r := replayed.2.2, rc := replayed.1 }

inductive Op where
  /-- `retraced_journal_event`. -/
  | event (ts : Int64) (agent_id : Bytes) (seq : UInt64) (payload : Option Bytes)
  /-- `retraced_journal_flush`. -/
  | flush
  /-- `retraced_journal_close`, and the next boot. -/
  | restart (closed_at : Int64) (rot : Rotation) (opened_at : Int64)

def Session.step (path : Bytes) (s : Session) : Op → Session
  | .event ts agent_id seq payload =>
    let e := (retraced_journal_event s.w s.j ts agent_id seq payload).2
    { s with w := e.1, j := e.2 }
  | .flush =>
    let e := retraced_journal_flush s.w s.j
    { s with w := e.1, j := e.2 }
  | .restart closed_at rot opened_at =>
    journal_boot path (retraced_journal_close s.w s.j closed_at).1 rot opened_at

def journal_base (path : Bytes) : Bytes := snprintf 512 (cstr path)

def Fresh (fs : FS) (base : Bytes) : Prop := fs base = none ∧ ∀ n, fs (segment_file base n) = none

end Retrace.Retraced
