import Retrace.Daemon.Loop

/-!
# The registry a replay should rebuild

What the journal of a run should leave of its agents at the next boot, in terms of what they said.
-/

namespace Retrace.Retraced

open CLib Parson Rpc Runs

def Said.agent : Said → Bytes
  | .hello agent _ _ => agent
  | .event agent _ _ => agent
  | .heartbeat agent => agent
  | .policy_ack agent _ => agent
  | .bye agent => agent

def Said.record : Said → Option (Bytes × UInt64)
  | .event agent seq true => some (agent, seq)
  | .policy_ack agent true => some (agent, 0)
  | _ => none

def SaidHello (said : List Said) (agent : Bytes) : Prop := ∃ pid counter, Said.hello agent pid counter ∈ said

def records (said : List Said) : List (Bytes × UInt64) := said.filterMap Said.record

def Journaled (said : List Said) (agent : Bytes) : Prop := agent ∈ (records said).map Prod.fst

def SaidBye (said : List Said) (agent : Bytes) : Prop :=
  (said.filter (·.agent = agent)).getLast? = some (.bye agent)

instance (said : List Said) (agent : Bytes) : Decidable (SaidBye said agent) :=
  inferInstanceAs (Decidable (_ = _))

def last_event (said : List Said) (agent : Bytes) : Option UInt64 :=
  (said.filterMap fun
    | .event a seq true => if a = agent then some seq else none
    | _ => none).getLast?

/-- The number of the agent's last record in the journal; the acknowledgement of a policy has the number 0. -/
def last_record (said : List Said) (agent : Bytes) : Option UInt64 :=
  ((records said).filter (·.1 = agent)).getLast?.map Prod.snd

/-- The registry `r` is rebuilt as far as the ids in `P` go: it has the agents that said hello and are in
the journal, those whose last message was a bye are gone, and each has the number of its last event. -/
structure Rebuilds (P : Bytes → Prop) (said : List Said) (r : Registry) : Prop where
  ids : ∀ a, P a → ((retraced_registry_find r a).isSome ↔ SaidHello said a ∧ Journaled said a)
  gone : ∀ e ∈ r.agents, P e.id → SaidBye said e.id → e.state = .gone
  seq : ∀ e ∈ r.agents, P e.id → ∀ q, last_event said e.id = some q → e.last_seq = q

def Input.now : Input → Int64
  | .frame _ env _ => env.now
  | .hangup _ now => now
  | .verb now _ => now
  | .sweep _ now => now
  | .record now _ => now
  | .accept _ => 0
  | .invalid _ => 0

/-- A record that can be read back: its text is that of an object in one line, its number is one that a
double holds, and there are fewer than 10000 segments behind it. -/
def RecordOk (now : Int64) (p : World × Journal) : Effect → Prop
  | .journal agent_id seq event =>
    PayloadOk (some event) ∧ doubleToU64 (roundDouble seq.toNat) = seq ∧
      (retraced_journal_event p.1 p.2 now agent_id seq (some event)).2.2.segment_seq < 10000
  | _ => True

instance (payload : Option Bytes) : Decidable (PayloadOk payload) :=
  match payload with
  | none => isTrue (by simp [PayloadOk])
  | some p => decidable_of_iff (ObjectText p ∧ Inline p) (by simp [PayloadOk])

instance (now : Int64) (p : World × Journal) (e : Effect) : Decidable (RecordOk now p e) :=
  match e with
  | .journal agent_id seq event =>
    inferInstanceAs (Decidable (PayloadOk (some event) ∧ doubleToU64 (roundDouble seq.toNat) = seq ∧
      (retraced_journal_event p.1 p.2 now agent_id seq (some event)).2.2.segment_seq < 10000))
  | .send _ _ _ => isTrue trivial
  | .reply _ => isTrue trivial

def RecordsOk (now : Int64) (p : World × Journal) (es : List Effect) : Prop :=
  Along (journal_effect now) (RecordOk now) p es

instance (now : Int64) (p : World × Journal) (es : List Effect) : Decidable (RecordsOk now p es) :=
  inferInstanceAs (Decidable (Along (journal_effect now) (RecordOk now) p es))

def InputOk (s : Running) (x : Input) : Prop := RecordsOk x.now (s.w, s.j) (s.step x).2

instance (s : Running) (x : Input) : Decidable (InputOk s x) :=
  inferInstanceAs (Decidable (RecordsOk x.now (s.w, s.j) (s.step x).2))

def Running.summarised (s : Running) (now : Int64) : Running :=
  s.after now { s.d with reg := (daemon_frame_drift_summaries s.d.reg).1 } (daemon_frame_drift_summaries s.d.reg).2

/-- A shutdown whose records can be read back, of a journal in which no link reads as broken, and with room
in the registry for the agents beside the daemon. -/
structure ShutdownOk (C : Crypto) (s : Running) (closed_at sealed_at : Int64)
    (signing_key : Option Path) : Prop where
  summaries : RecordsOk closed_at (s.w, s.j) (daemon_frame_drift_summaries s.d.reg).2
  close : CloseOk C ⟨(s.summarised closed_at).w, (s.summarised closed_at).j, (s.summarised closed_at).d.reg, 0⟩
    closed_at sealed_at signing_key
  links : NoSentinel (s.stop C (.graceful closed_at sealed_at signing_key)).written
  room : ((records s.said).map Prod.fst).dedup.length < RETRACED_REGISTRY_MAX

end Retrace.Retraced
