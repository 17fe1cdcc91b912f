import Retrace.Supervisor.AgentRing
import Retrace.Supervisor.EventText
import Retrace.Supervisor.Agent
import Retrace.Core.Redact

/-!
# The queue of an agent

`agent_posix.c`: the threads of the target put the events into the ring, and the thread of the agent
sends them to the daemon one by one. An event is taken out of the ring when its frame was sent; what the
ring did not take is reported in an event of its own. A child that was forked is given a new start,
by the handler of `pthread_atfork` where it runs, and by the first event otherwise.
-/

namespace Retrace.Supervisor.Queue

open CLib Rpc Retrace.Core

/-- The part of `struct agent_state` the events go through. -/
structure AgentState where
  armed : Bool
  agent_id : Bytes
  ring : AgentRing
  drops_reported : UInt64
  seq : UInt64
  thread_spawned : Bool
  thread_done : Bool
  stop : Bool
  /-- The connection, `none` for -1. -/
  fd : Option Nat
  connected : Bool
  spawner_pid : Int
  rfill : Nat

def queue_push (g : AgentState) (heap : Bool) (text : Bytes) (copy_ok : Bool) : Int × AgentState :=
  let s := cstr text
  let r :=
    if heap then agent_ring_push_heap g.ring (s ++ [0]) s.length
    else agent_ring_push_copy g.ring s s.length copy_ok
  (r.1, { g with ring := r.2 })

def spawn_agent_thread (pid : Int) (create_ok : Bool) (g : AgentState) : Int × AgentState :=
  if g.thread_spawned then (0, g)
  else if create_ok then (0, { g with thread_spawned := true, spawner_pid := pid })
  else (-1, { g with spawner_pid := pid })

/-- What a call of `retrace_agent_emit_event` finds around it: the time, whether the memory for the name
and the text, for the escapes of each attribute and for a copy is allocated, whether a thread can be
created, and the patterns of the redaction. -/
structure EmitEnv where
  now : Int
  alloc : Bool
  attr_alloc : Nat → Bool
  copy_ok : Bool
  create_ok : Bool
  patterns : List Bytes

/-- The arguments of a call; the attributes are `none` when there is a number of them but no array. -/
structure Call where
  name : Option Bytes
  kv : Option (List (Bytes × Bytes))

structure Item where
  seq : UInt64
  heap : Bool
  text : Bytes

def next_seq (g : AgentState) : UInt64 × AgentState := (g.seq + 1, { g with seq := g.seq + 1 })

/-- `build_event_json`: a sequence number is taken once the memory is there. -/
def build_event_json (env : EmitEnv) (g : AgentState) (name : Bytes) (kv : List (Bytes × Bytes)) :
    Option (UInt64 × Bytes) × AgentState :=
  if env.alloc then
    let (seq, g) := next_seq g
    (some (seq, event_json g.agent_id seq env.now name kv env.attr_alloc), g)
  else (none, g)

/-- The event with the sequence number `seq` is formatted, on the heap with a new number when it cannot
be done on the stack. -/
def format_event (env : EmitEnv) (g : AgentState) (seq : UInt64) (name : Bytes) (kv : List (Bytes × Bytes)) :
    Option Item × AgentState :=
  match retrace_agent_format_event_stack AGENT_EVENT_INLINE g.agent_id seq env.now name kv with
  | some text => (some ⟨seq, false, retrace_redact_apply env.patterns text⟩, g)
  | none =>
    match build_event_json env g name kv with
    | (some (seq, text), g) => (some ⟨seq, true, retrace_redact_apply env.patterns text⟩, g)
    | (none, g) => (none, g)

/-- The reset behind `fork_adopt`: the thread was started by another process. -/
def fork_adopt (pid : Int) (g : AgentState) : AgentState :=
  if g.thread_spawned ∧ g.spawner_pid ≠ pid then
    { g with
      fd := none, connected := false, rfill := 0, ring := { g.ring with ring := g.ring.ring.clear }, stop := false,
      agent_id := bytes "pending", spawner_pid := pid, thread_spawned := true }
  else g

def retrace_agent_emit_event (env : EmitEnv) (pid : Int) (g : AgentState) (call : Call) : Int × AgentState :=
  match call.name with
  | none => (-1, g)
  | some name =>
    if ¬g.armed then (0, g)
    else
      match call.kv with
      | none => (-1, g)
      | some kv =>
        let (seq, g) := next_seq g
        match format_event env g seq name kv with
        | (none, g) => (-1, g)
        | (some item, g) =>
          let (_, g) := queue_push g item.heap item.text env.copy_ok
          spawn_agent_thread pid env.create_ok (fork_adopt pid g)

def agent_atfork_child (g : AgentState) : AgentState :=
  { g with
    fd := none, connected := false, rfill := 0, ring := { g.ring with ring := g.ring.ring.clear },
    thread_spawned := false, thread_done := false, stop := false, agent_id := bytes "pending" }

def drop_connection (g : AgentState) : AgentState := { g with fd := none, connected := false, rfill := 0 }

/-- One turn of the loop of `drain_queue`: the event that was sent, the result and the bytes that went
out. Other threads can put events into the ring while it is sent, as they can before and after: its slot
stays in use until then. -/
def drain_turn (g : AgentState) (ret : Int) : Option (Bytes × Int × Bytes) × AgentState :=
  match agent_ring_peek g.ring with
  | none => (none, g)
  | some item =>
    let (rc, written) := send_frame .EVENT item ret
    (some (item, rc, written),
      if rc ≠ 0 then drop_connection g else { g with ring := agent_ring_pop g.ring })

def drop_marker (now : Int) (g : AgentState) : Option Bytes :=
  if g.ring.dropped ≠ g.drops_reported then
    some (snprintf 176 (bytes "\x7b\"agent_id\":\"" ++ g.agent_id ++ bytes "\",\"seq\":0,\"ts\":" ++ fmtInt now ++
      bytes ",\"name\":\"retrace.agent.dropped\",\"attrs\":\x7b\"count\":\"" ++
      fmtNat (g.ring.dropped - g.drops_reported).toNat ++ bytes "\",\"total\":\"" ++ fmtNat g.ring.dropped.toNat ++
      bytes "\"\x7d\x7d\x7d\x7d"))
  else none

/-- The end of `drain_queue`: the report is put into the queue. -/
def report_drops (now : Int) (copy_ok : Bool) (g : AgentState) : AgentState :=
  match drop_marker now g with
  | none => g
  | some marker =>
    let (rc, g') := queue_push g false marker copy_ok
    if rc = 0 then { g' with drops_reported := g.ring.dropped } else g'

/-- `drain_queue`, with what the calls of `rc_send` return; when there are none left the last one has not
returned. -/
def drain_queue (now : Int) (copy_ok : Bool) : List Int → AgentState → AgentState
  | rets, g =>
    match agent_ring_peek g.ring, rets with
    | none, _ => report_drops now copy_ok g
    | some _, [] => g
    | some _, ret :: rets =>
      match drain_turn g ret with
      | (some (_, rc, _), g) => if rc ≠ 0 then g else drain_queue now copy_ok rets g
      | (none, g) => g

/-- An action on the queue: a producer puts a text into it, the agent's thread sends the oldest event, or
reports what was dropped. -/
inductive QueueAct where
  | push (heap : Bool) (text : Bytes) (copy_ok : Bool)
  | send (ret : Int)
  | report (now : Int) (copy_ok : Bool)

/-- A queue with its books: the texts the ring took, in order, with those it held at the beginning; how
many it did not take; and the events that were taken out, with the bytes that went out for each. -/
structure Ledger where
  g : AgentState
  taken : List Bytes
  refused : Nat
  popped : List (Bytes × Bytes)

def Ledger.push (l : Ledger) (heap : Bool) (text : Bytes) (copy_ok : Bool) : Ledger :=
  let (rc, g) := queue_push l.g heap text copy_ok
  if rc = 0 then { l with g := g, taken := l.taken ++ [cstr text] }
    else { l with g := g, refused := l.refused + 1 }

def Ledger.step (l : Ledger) : QueueAct → Ledger
  | .push heap text copy_ok => l.push heap text copy_ok
  | .send ret =>
    match drain_turn l.g ret with
    | (none, g) => { l with g := g }
    | (some (item, rc, written), g) =>
      if rc = 0 then { l with g := g, popped := l.popped ++ [(item, written)] } else { l with g := g }
  | .report now copy_ok =>
    match drop_marker now l.g with
    | none => l
    | some marker => { l.push false marker copy_ok with g := report_drops now copy_ok l.g }

def Ledger.start (g : AgentState) : Ledger := ⟨g, g.ring.texts, 0, []⟩

def eventMessage (payload : Bytes) : Message :=
  ⟨⟨RETRACE_RPC_VERSION, RpcMsg.EVENT.id, payload.length.toUInt32⟩, payload⟩

/-- Every event that was taken out of the queue went out as one complete frame with all of its text, and
every other one is still in the queue or was counted. -/
def DeliveredWhole (g : AgentState) (l : Ledger) : Prop :=
  (∀ x ∈ l.popped, (eventMessage x.1).Ok ∧ x.2 = (eventMessage x.1).wire) ∧
    l.taken = l.popped.map Prod.fst ++ l.g.ring.texts ∧ l.g.ring.dropped = g.ring.dropped + UInt64.ofNat l.refused

def SendsWhole (l : Ledger) : QueueAct → Prop
  | .send ret => ∀ item ∈ l.g.ring.texts.head?, 0 < ret →
      item.length ≤ 2048 ∧ ((12 + item.length : Nat) : Int) ≤ ret
  | _ => True

end Retrace.Supervisor.Queue
