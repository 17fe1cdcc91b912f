import Retrace.Journal.Series
import Retrace.Runs.Runs

/-!
# Restarting on a journal

What a restart should do, and what it needs: the conditions on base paths, events and runs under
which the statements about restarts are made.
-/

namespace Retrace.Retraced

open CLib Parson HashChain

def PayloadOk (payload : Option Bytes) : Prop := ∀ p ∈ payload, ObjectText p ∧ Inline p

structure CleanPath (path : Bytes) (rot : Rotation) : Prop where
  plain : rot.enabled = true → Plain (journal_base path)
  markers : rot.enabled = true → MarkersFit (journal_base path)
  prunes : rot.enabled = true → rot.budget_bytes ≠ 0 → PrunesFit (journal_base path)

/-- A write: an event with an id and a payload that can be put into a line as they are, which leaves
fewer than 10000 segments, or a flush. -/
def WriteOk (path : Bytes) (s : Session) (op : Op) : Prop :=
  match op with
  | .event _ agent_id _ payload =>
    Plain agent_id ∧ PayloadOk payload ∧ (s.step path op).j.segment_seq < 10000
  | .flush => True
  | .restart _ _ _ => False

/-- The restart `s` goes on where `closed` ended: it found the highest segment, accepted the history
and took over the head. -/
structure Resumes (rot : Rotation) (base : Bytes) (closed : World × Journal) (s : Session) : Prop where
  highest : ∀ n, segment_exists closed.1.fs base n = true → n ≤ s.j.segment_seq
  live : rot.enabled = true → segment_exists closed.1.fs base s.j.segment_seq = true
  rc : s.rc = 0
  unbroken : s.j.chain_broken_at = -1
  head : s.j.prev_hash = closed.2.prev_hash

def segment_first_link (fs : FS) (base : Bytes) (n : Nat) : Option (Seen UInt64) :=
  (fs (segment_file base n)).bind fun content => (journal_chunks content).head?.map seeRecord

/-- The lowest segment there is: segment 0, or segment 1 with the link 0 in its first line. -/
def StartsFromZero (fs : FS) (base : Bytes) : Prop :=
  ∀ lo, retraced_journal_segment_lo fs base 9999 = some lo →
    lo = 0 ∨ (lo = 1 ∧ segment_first_link fs base 1 = some (.link 0))

/-- An action of a life without retention, in which rotation stays on or off: an event as for a run of
writes, a flush, or a restart that leaves fewer than 10000 segments and no link that reads as broken. -/
def RoundTripOk (path : Bytes) (enabled : Bool) (s : Session) (op : Op) : Prop :=
  match op with
  | .event _ agent_id _ payload =>
    Plain agent_id ∧ PayloadOk payload ∧ (s.step path op).j.segment_seq < 10000
  | .flush => True
  | .restart closed_at rot _ =>
    rot.enabled = enabled ∧ rot.budget_bytes = 0 ∧
      (retraced_journal_close s.w s.j closed_at).2.segment_seq < 10000 ∧
      NoSentinel (retraced_journal_close s.w s.j closed_at).1.written

/-- The boot `s` read back all that the writer `closed` wrote. -/
structure RoundTrips (closed : World × Journal) (s : Session) : Prop where
  rc : s.rc = 0
  unbroken : s.j.chain_broken_at = -1
  head : s.j.prev_hash = closed.2.prev_hash
  events : s.j.replay_events = closed.1.written.length

instance (closed : World × Journal) (s : Session) : Decidable (RoundTrips closed s) :=
  decidable_of_iff (s.rc = 0 ∧ s.j.chain_broken_at = -1 ∧ s.j.prev_hash = closed.2.prev_hash ∧
      s.j.replay_events = closed.1.written.length)
    ⟨fun ⟨h1, h2, h3, h4⟩ => ⟨h1, h2, h3, h4⟩, fun ⟨h1, h2, h3, h4⟩ => ⟨h1, h2, h3, h4⟩⟩

end Retrace.Retraced
