import Retrace.Journal.Series
import Retrace.Journal.Sign

/-!
# What a verdict on a journal means

Files of a journal as evidence: which lines they hold, which of them a reader gets to see, and what it
means that they were verified. Nothing here supposes that the files were written by the daemon.
-/

namespace Retrace.Retraced

open CLib Parson HashChain

/-- The lines of a file that the replay, the tail and the query read, up to the first one they take
for a torn end: one without newline, with a NUL, longer than the buffer or not parsed. -/
def readableLines (content : Bytes) : List Bytes := readable seeRecord (journal_chunks content)

def unreadBytes (content : Bytes) : Bytes := (unread seeRecord (journal_chunks content)).flatten

def VerifiedLine (h : UInt64) (l : Bytes) : Prop := l.length < 2048 ∧ seeRecord l = .link h

/-- The files `retraced_journal_replay` reads, oldest first; `none` for one that is missing. -/
def replayed_files (fs : FS) (j : Journal) : List (Option Bytes) :=
  if j.rotates then
    match retraced_journal_segment_lo fs j.base j.segment_seq with
    | none => []
    | some lo => (List.range' lo (j.segment_seq + 1 - lo)).map fun seq => fs (segment_file j.base seq)
  else [fs j.path]

/-- The files hold one verified chain from the link `h`: all closed segments are there, every complete
line was verified, and only the live segment may end in an incomplete one. -/
structure Verified (h : UInt64) (files : List (Option Bytes)) : Prop where
  present : ∀ f ∈ files.dropLast, f ≠ none
  lines : Linked VerifiedLine lineLink h (files.flatMap fun f => completeLines (f.getD []))
  whole : ∀ f ∈ files.dropLast, tornTail (f.getD []) = []

/-- The readable lines of the files are one chain from the link `h`, and no file ends with the link
that stands for a broken chain. Only the live file may be missing. -/
def ReadableChain : UInt64 → List (Option Bytes) → Prop
  | _, [] => True
  | _, none :: files => files = []
  | h, some content :: files =>
    Linked (Carries seeRecord) lineLink h (readableLines content) ∧
      headOf lineLink h (readableLines content) ≠ broken_head ∧
      ReadableChain (headOf lineLink h (readableLines content)) files

/-- Everything in the files can be read, except for an unfinished line at the end of the live one. -/
structure OnlyTailUnread (files : List (Option Bytes)) : Prop where
  closed : ∀ f ∈ files.dropLast, unreadBytes (f.getD []) = []
  live : ∀ f ∈ files.getLast?, newline ∉ unreadBytes (f.getD [])

def VerifiersAgree (fs : FS) (j : Journal) (last_n : Nat) : Prop :=
  ∃ tail, retraced_journal_tail fs j last_n = some tail ∧
    tail.chain_out = (retraced_journal_chain_file fs j.path 0).broken_at ∧
    (retraced_journal_replay fs j {}).2.1.chain_broken_at =
      if (retraced_journal_chain_file fs j.path 0).broken_at = 0 then (-1 : Int)
      else (retraced_journal_chain_file fs j.path 0).broken_at

/-- The line `l` behind the chain `pre` looks the same to all verifiers: it does not lack its link, the
member `prev` is the head exactly when the text behind the first `prev_marker` is, the number of a
broken line fits an `int`, and a line at which the others stop is followed by nothing that the text
search finds broken. -/
structure LooksAlike (pre : List Bytes) (l : Bytes) (rest : List Bytes) : Prop where
  present : seeRecord l ≠ .missing
  alike : ∀ v, seeRecord l = .link v →
    (v = headOf lineLink 0 pre ↔ seeText l = .link (headOf lineLink 0 pre))
  counted : ∀ v, seeRecord l = .link v → v ≠ headOf lineLink 0 pre → pre.length + 1 < 2 ^ 31
  stopped : seeRecord l = .stop →
    Linked (Carries seeText) lineLink (headOf lineLink 0 pre) (l :: rest)

def Session.disk (s : Session) (n : Nat) : FS :=
  match s.j.f with
  | some f => (f.spill s.w.fs n).1
  | none => s.w.fs

/-- The reads of the live journal go through: the tail of the running journal finds no broken line, and
the seal of the closed one is not refused for a broken chain. -/
structure LiveReads (C : Crypto) (s : Session) (n last_n : Nat) (closed : World × Journal)
    (key_path : Path) (rec_cap : Nat) : Prop where
  tail : ∃ t, retraced_journal_tail (s.disk n) s.j last_n = some t ∧ t.chain_out = 0
  sign : ∀ line, retraced_journal_sign_file C closed.1.fs key_path closed.2.path rec_cap ≠
    .error (.chain_broken line)

def FileStartsFromZero (fs : FS) (path : Path) : Prop :=
  ∀ l ∈ (journal_chunks ((fs path).getD [])).head?, ∀ v, seeRecord l = .link v → v = 0

end Retrace.Retraced
