import Retrace.Journal.Evidence
import Retrace.Journal.Restart

/-!
# Crashes and shutdowns

How a run of the daemon begins and ends: the boot as `main` does it, the graceful shutdown with its
optional seal, and a crash, which leaves on disk what the library had written out of the buffer.
-/

namespace Retrace.Retraced

open CLib Parson HashChain

def journal_unclean_record : Bytes := bytes "\x7b\"name\":\"retrace.journal.unclean\"\x7d"

/-- The boot in `main`: the daemon refuses to start on a broken chain (`none`), and journals an unclean
shutdown. -/
def main_boot (path : Bytes) (w : World) (rot : Rotation) (now : Int64) : Option Session :=
  let s := journal_boot path w rot now
  if 0 ≤ s.j.chain_broken_at then none
  else if s.rc = 0 ∧ 0 < s.j.lines ∧ s.j.clean_close = false then
    let e := (retraced_journal_event s.w s.j now daemon_id 0 (some journal_unclean_record)).2
    some { s with w := e.1, j := e.2 }
  else some s

def AppendOk (_ : Session) : Op → Prop
  | .event _ agent_id _ payload => Plain agent_id ∧ PayloadOk payload
  | .flush => True
  | .restart _ _ _ => False

/-- A replay of the journal on `path` once it is flushed: it accepts what could be read of the file
`left` by the crash and every record appended since then, in order, and ends with the writer's head. -/
structure Recovers (path : Bytes) (rot : Rotation) (left : Bytes) (s : Session) (now : Int64) :
    Prop where
  rc : (journal_boot path (retraced_journal_flush s.w s.j).1 rot now).rc = 0
  unbroken : (journal_boot path (retraced_journal_flush s.w s.j).1 rot now).j.chain_broken_at = -1
  lines : readableLines (((retraced_journal_flush s.w s.j).1.fs (journal_base path)).getD []) =
    readableLines left ++ s.w.written
  events : (journal_boot path (retraced_journal_flush s.w s.j).1 rot now).j.replay_events =
    (readableLines left).length + s.w.written.length
  head : (journal_boot path (retraced_journal_flush s.w s.j).1 rot now).j.prev_hash = s.j.prev_hash

/-- A point on the way through `retraced_journal_event`. -/
inductive Point where
  | before
  | appended
  | closing
  | rolled
  | pruned (rounds : Nat)
  | pruning (rounds : Nat)
  | done

def retained_at (w : World) (j : Journal) (ts : Int64) (rounds : Nat) : World × Journal :=
  if j.budget_bytes = 0 then (w, j) else journal_retain_loop ts rounds w j

def prune_file (w : World) (j : Journal) : World × Journal :=
  match if j.budget_bytes = 0 then none else prune_next w.fs j with
  | none => (w, j)
  | some (lo, _) => ({ w with fs := removeFile w.fs (segment_file j.base lo) }, j)

def rotate_at (w : World) (j : Journal) (ts : Int64) : Point → World × Journal
  | .before | .appended => (w, j)
  | .closing => rotate_closing w j ts
  | .rolled => rotate_next w j ts
  | .pruned rounds => retained_at (rotate_next w j ts).1 (rotate_next w j ts).2 ts rounds
  | .pruning rounds =>
    let p := retained_at (rotate_next w j ts).1 (rotate_next w j ts).2 ts rounds
    prune_file p.1 p.2
  | .done => journal_rotate w j ts

def event_at (w : World) (j : Journal) (ts : Int64) (agent_id : Bytes) (seq : UInt64)
    (payload : Option Bytes) : Point → World × Journal
  | .before => (w, j)
  | p =>
    match journal_append w j ts agent_id seq payload with
    | none => (w, j)
    | some (w, j) => if j.due ts then rotate_at w j ts p else (w, j)

inductive Stage where
  | idle
  | event (ts : Int64) (agent_id : Bytes) (seq : UInt64) (payload : Option Bytes) (p : Point)
  | sealing (closed_at sealed_at : Int64) (signing_key : Path) (p : Point)

def Session.killed (C : Crypto) (s : Session) : Stage → World × Journal
  | .idle => (s.w, s.j)
  | .event ts agent_id seq payload p => event_at s.w s.j ts agent_id seq payload p
  | .sealing closed_at sealed_at signing_key p =>
    let closed := retraced_journal_close s.w s.j closed_at
    match retraced_journal_sign_file C closed.1.fs signing_key closed.2.path 512 with
    | .ok text => event_at closed.1 closed.2 sealed_at daemon_id 0 (some text) p
    | .error _ => closed

inductive Ending where
  /-- A crash, with `n` more bytes of the buffer written out. -/
  | crash (stage : Stage) (n : Nat)
  /-- The shutdown in `main`: the journal is closed, and sealed when there is a signing key. -/
  | graceful (closed_at sealed_at : Int64) (signing_key : Option Path)

def Ending.isGraceful : Ending → Bool
  | .crash _ _ => false
  | .graceful _ _ _ => true

/-- The journal when the process is gone. The seal is one more event on the closed journal; the stream
it opens is written out on exit. -/
def Session.stop (C : Crypto) (s : Session) : Ending → World × Journal
  | .crash stage n =>
    let p := s.killed C stage
    ({ p.1 with fs := ({ s with w := p.1, j := p.2 } : Session).disk n }, p.2)
  | .graceful closed_at sealed_at signing_key =>
    let closed := retraced_journal_close s.w s.j closed_at
    match signing_key.map fun key =>
        retraced_journal_sign_file C closed.1.fs key closed.2.path 512 with
    | some (.ok text) =>
      let done := (retraced_journal_event closed.1 closed.2 sealed_at daemon_id 0 (some text)).2
      (close_stream done.1 done.2, done.2)
    | _ => closed

def closes (l : Bytes) : Bool := (strstr l close_marker).isSome

def lastLine (fs : FS) (j : Journal) : Option Bytes :=
  ((replayed_files fs j).flatMap fun f => completeLines (f.getD [])).getLast?

def Journal.close_due (j : Journal) (now : Int64) : Bool :=
  let line := journal_line now daemon_id 0 j.prev_hash (some journal_closed_record)
  ({ j with seg_bytes := j.seg_bytes + line.length } : Journal).due now

/-- The end of a run that the next boot tells right: a crash that left another line than a close marker
last, or a close that neither rotated nor was followed by a seal. -/
def ToldRight (C : Crypto) (s : Session) : Ending → Prop
  | .crash stage n =>
    ∀ l ∈ lastLine (s.stop C (.crash stage n)).1.fs (s.killed C stage).2, closes l = false
  | .graceful closed_at _ signing_key =>
    s.j.close_due closed_at = false ∧
      ∀ key ∈ signing_key, ∀ text,
        retraced_journal_sign_file C (retraced_journal_close s.w s.j closed_at).1.fs key
          (retraced_journal_close s.w s.j closed_at).2.path 512 ≠ .ok text

/-- A journal to start from: none, or a chain of records from the link 0 in segment 0 or 1. -/
inductive Started (path : Bytes) (rot : Rotation) (fs : FS) : Series → Prop where
  | fresh (h : Fresh fs (journal_base path)) : Started path rot fs Series.empty
  | stored {S : Series} (hst : Stored fs (journal_base path) rot.enabled S) (hlo : S.lo ≤ 1)
      (hgen : S.genesis = 0) (hns : NoSentinel S.lines) : Started path rot fs S

/-- A shutdown that leaves fewer than 10000 segments; there are fewer than `2 ^ 64` lines to seal. -/
structure CloseOk (C : Crypto) (s : Session) (closed_at sealed_at : Int64) (signing_key : Option Path) :
    Prop where
  seq_lt : (s.stop C (.graceful closed_at sealed_at signing_key)).2.segment_seq < 10000
  few : (retraced_journal_close s.w s.j closed_at).1.written.length < 2 ^ 64

/-- What was written last, or would have been, is well-formed and leaves fewer than 10000 segments. -/
def LastWriteOk (C : Crypto) (path : Bytes) (s : Session) : Ending → Prop
  | .crash .idle _ => True
  | .crash (.event ts agent_id seq payload _) _ => WriteOk path s (.event ts agent_id seq payload)
  | .crash (.sealing closed_at sealed_at signing_key _) _ =>
    CloseOk C s closed_at sealed_at (some signing_key)
  | .graceful closed_at sealed_at signing_key => CloseOk C s closed_at sealed_at signing_key

/-- The journal a run leaves starts from segment 0, or segment 1 with the link 0, and no link reads as
broken. -/
structure EndOk (base : Bytes) (w : World) : Prop where
  start : StartsFromZero w.fs base
  links : NoSentinel w.written

def isBase64 (c : UInt8) : Bool :=
  (65 ≤ c && c ≤ 90) || (97 ≤ c && c ≤ 122) || (48 ≤ c && c ≤ 57) || c == 43 || c == 47 || c == 61

def EncodesBase64 (C : Crypto) : Prop := ∀ sig, ∀ c ∈ C.encodeBlock sig, isBase64 c = true

end Retrace.Retraced
