import Retrace.Supervisor.Queue

/-!
# Threads and processes that put events into queues

The threads of one process call `retrace_agent_emit_event` at the same time, and each call takes its
sequence number, formats the event and puts it into the queue in steps of its own. Processes fork, and a
child has a copy of its parent's agent. What an event in a ring is, is kept beside the ring in a list of
marks: the ring tells how many of them are left.
-/

namespace Retrace.Supervisor.Queue

open CLib Retrace.Core

/-- The marks of a ring after an action that may have put one event with the mark `mark` into it. -/
def marksAfter {α : Type} (marks : List α) (mark : α) (r : AgentRing) : List α :=
  (marks ++ [mark]).take r.ring.count

/-- Where a thread is in `retrace_agent_emit_event`: it has a sequence number, or the event is ready to be
put into the queue, or it has been put there. -/
inductive Local where
  | idle
  | numbered (name : Bytes) (kv : List (Bytes × Bytes)) (seq : UInt64)
  | formatted (item : Item)
  | queued

def Local.inFlight : Local → Bool
  | .numbered .. => true
  | .formatted _ => true
  | _ => false

/-- The threads of the process `pid`, with the sequence numbers of the events in the ring (none for a
report) and of all that were put into the queue, in order and with whether the ring took them. -/
structure Threads where
  pid : Int
  g : AgentState
  threads : Nat → Local
  queue : List (Option UInt64)
  log : List (UInt64 × Bool)

/-- A step of the thread `t`, or of the agent's thread. -/
inductive ThreadAct where
  | number (t : Nat) (name : Bytes) (kv : List (Bytes × Bytes))
  | format (t : Nat) (env : EmitEnv)
  | push (t : Nat) (env : EmitEnv)
  | finish (t : Nat) (env : EmitEnv)
  | send (ret : Int)
  | report (now : Int) (copy_ok : Bool)

def Threads.step (s : Threads) : ThreadAct → Threads
  | .number t name kv =>
    match s.threads t with
    | .idle =>
      if s.g.armed then
        let (seq, g) := next_seq s.g
        { s with g := g, threads := Function.update s.threads t (.numbered name kv seq) }
      else s
    | _ => s
  | .format t env =>
    match s.threads t with
    | .numbered name kv seq =>
      match format_event env s.g seq name kv with
      | (some item, g) => { s with g := g, threads := Function.update s.threads t (.formatted item) }
      | (none, g) => { s with g := g, threads := Function.update s.threads t .idle }
    | _ => s
  | .push t env =>
    match s.threads t with
    | .formatted item =>
      let (rc, g) := queue_push s.g item.heap item.text env.copy_ok
      { s with
        g := g, threads := Function.update s.threads t .queued, queue := marksAfter s.queue (some item.seq) g.ring,
        log := s.log ++ [(item.seq, rc == 0)] }
    | _ => s
  | .finish t env =>
    match s.threads t with
    | .queued =>
      let (_, g) := spawn_agent_thread s.pid env.create_ok (fork_adopt s.pid s.g)
      { s with g := g, threads := Function.update s.threads t .idle, queue := s.queue.take g.ring.ring.count }
    | _ => s
  | .send ret =>
    let (_, g) := drain_turn s.g ret
    { s with g := g, queue := s.queue.drop (s.g.ring.ring.count - g.ring.ring.count) }
  | .report now copy_ok =>
    let g := report_drops now copy_ok s.g
    { s with g := g, queue := marksAfter s.queue none g.ring }

def Threads.start (pid : Int) (g : AgentState) : Threads :=
  ⟨pid, g, fun _ => .idle, List.replicate g.ring.ring.count none, []⟩

def accepted (log : List (UInt64 × Bool)) : List UInt64 := (log.filter Prod.snd).map Prod.fst

/-- The events in the queue have increasing sequence numbers, and two that follow one another differ by
one and the number of those dropped between them. -/
structure InOrder (s : Threads) : Prop where
  queue : s.queue.filterMap id <:+ accepted s.log
  increasing : (accepted s.log).Pairwise (· < ·)
  gaps : ∀ pre a mid b post, s.log = pre ++ (a, true) :: (mid ++ (b, true) :: post) → (∀ x ∈ mid, x.2 = false) →
    b.toNat = a.toNat + 1 + mid.length

/-- The calls do not overlap between taking a number and the queue, the numbers do not wrap around, and
every event is formatted on the stack. -/
def OneByOne (s : Threads) : ThreadAct → Prop
  | .number _ _ _ => (∀ t, (s.threads t).inFlight = false) ∧ s.g.seq.toNat + 1 < 2 ^ 64
  | .format t env =>
    match s.threads t with
    | .numbered name kv seq =>
      Plain name ∧ (∀ x ∈ kv, Plain x.1 ∧ Plain x.2) ∧
        (event_text s.g.agent_id seq env.now name kv).length + 1 < AGENT_EVENT_INLINE
    | _ => True
  | _ => True

/-- A process, with the numbers of the calls that returned 0 in it, and the marks of the events in its
ring, of those the agent's thread took out, and of those that were counted in `dropped` since the
process began. A mark is the number of the call that made the event, and none for a report. -/
structure Proc where
  pid : Int
  g : AgentState
  accepted : List Nat
  ring : List (Option Nat)
  drained : List (Option Nat)
  counted : List (Option Nat)
  /-- `ring.dropped` when the process began. -/
  dropped : UInt64

structure Procs where
  procs : List Proc
  calls : Nat

/-- An action of the process with the index `i`. -/
inductive ProcAct where
  | emit (i : Nat) (env : EmitEnv) (call : Call)
  /-- The child gets the number `pid`; `handler` says whether `agent_atfork_child` runs in it. -/
  | fork (i : Nat) (pid : Int) (handler : Bool)
  | send (i : Nat) (ret : Int)
  | report (i : Nat) (now : Int) (copy_ok : Bool)

/-- The process behind an action that left the agent `g` and may have put an event with the mark `mark` into
the ring or counted it. -/
def Proc.after (p : Proc) (mark : Option Nat) (g : AgentState) : Proc :=
  { p with
    g := g, ring := marksAfter p.ring mark g.ring,
    counted := if g.ring.dropped = p.g.ring.dropped then p.counted else p.counted ++ [mark] }

def Proc.emit (p : Proc) (n : Nat) (env : EmitEnv) (call : Call) : Proc :=
  let (rc, g) := retrace_agent_emit_event env p.pid p.g call
  let p := p.after (some n) g
  if rc = 0 then { p with accepted := p.accepted ++ [n] } else p

def Proc.fork (p : Proc) (pid : Int) (handler : Bool) : Proc :=
  let g := if handler then agent_atfork_child p.g else p.g
  ⟨pid, g, [], p.ring.take g.ring.ring.count, [], [], g.ring.dropped⟩

def Proc.send (p : Proc) (ret : Int) : Proc :=
  let (_, g) := drain_turn p.g ret
  let n := p.g.ring.ring.count - g.ring.ring.count
  { p with g := g, ring := p.ring.drop n, drained := p.drained ++ p.ring.take n }

def Procs.step (w : Procs) : ProcAct → Procs
  | .emit i env call => ⟨w.procs.modify i (·.emit w.calls env call), w.calls + 1⟩
  | .fork i pid handler => { w with procs := w.procs ++ (w.procs[i]?.map (·.fork pid handler)).toList }
  | .send i ret => { w with procs := w.procs.modify i (·.send ret) }
  | .report i now copy_ok =>
      { w with procs := w.procs.modify i fun p => p.after none (report_drops now copy_ok p.g) }

def Procs.start (pid : Int) (g : AgentState) : Procs :=
  ⟨[⟨pid, g, [], List.replicate g.ring.ring.count none, [], [], g.ring.dropped⟩], 0⟩

/-- Every event whose call returned 0 was taken out by the agent's thread, is in the ring or was counted. -/
structure Accounted (p : Proc) : Prop where
  marks : p.ring.length = p.g.ring.ring.count
  dropped : p.g.ring.dropped = p.dropped + UInt64.ofNat p.counted.length
  events : ∀ n ∈ p.accepted, some n ∈ p.drained ∨ some n ∈ p.ring ∨ some n ∈ p.counted

def OwnThread (w : Procs) : ProcAct → Prop
  | .emit i _ call => ∀ p, w.procs[i]? = some p →
      (call.name = none ∨ p.g.armed = true) ∧ (p.g.thread_spawned = true → p.g.spawner_pid = p.pid)
  | _ => True

end Retrace.Supervisor.Queue
