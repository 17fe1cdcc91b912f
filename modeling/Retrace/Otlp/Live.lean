import Retrace.Runs.Runs

/-!
# The live exporter

`otlp_live.c`, in the build that joins its thread. Any number of threads emit events and log entries, the
first of them creates the thread that ticks the exporter, and `retrace_otlp_live_deinit` takes all down
at the end. Every access to a variable that the threads share is a step of its own, and the steps of the
threads interleave in any order. What the calls into the exporter do is outside of this program: a step
says only which of the two objects it touches.

A process has far fewer than `2 ^ 31` threads, so the counter `emit_busy` does not wrap around.
-/

namespace Retrace.Otlp

/-- Where the tick thread is in `otlp_live_thread_main`. -/
inductive Tick where
  /-- At the test of `stop_signal`. -/
  | check
  /-- At `otlp_exporter_tick` in the loop; the thread sleeps behind it. -/
  | tick
  /-- At the last `otlp_exporter_tick`. -/
  | last
  | shutdown
  | flush
  /-- At the store that clears `running`. -/
  | finish
  | ended
  deriving DecidableEq, Repr

/-- `g_otlp`, with the tick threads that were created; `thread` is the index of one of them. A pointer is
whether it is not `NULL`, and beside it whether the object was freed. -/
structure Live where
  exporter : Bool := true
  exporter_freed : Bool := false
  tracer : Bool := true
  tracer_freed : Bool := false
  thread : Nat := 0
  running : Bool := true
  thread_spawned : Bool := false
  stop_signal : Bool := false
  door_open : Bool := true
  emit_busy : Int := 0
  threads : List Tick := []
  deriving DecidableEq, Repr

/-- A call of `retrace_otlp_live_emit_event` or `retrace_otlp_live_emit_json`, with whether its string is
`NULL`. -/
inductive Call where
  | event (null : Bool)
  | json (null : Bool)
  deriving DecidableEq, Repr

inductive Emit where
  | idle
  /-- The first test of `door_open`. -/
  | door (c : Call)
  /-- The increment of `emit_busy`. -/
  | enter (c : Call)
  /-- The second test of `door_open`. -/
  | recheck (c : Call)
  /-- The test of `running`. -/
  | running (c : Call)
  | pointers (c : Call)
  /-- The exchange of `thread_spawned` in `otlp_live_ensure_thread`. -/
  | ensure (c : Call)
  /-- `rc_thread_create`. -/
  | create (c : Call)
  /-- The store that takes `thread_spawned` back. -/
  | unspawn (c : Call)
  | prepare (c : Call)
  /-- `otlp_tracer_start_span`. -/
  | span
  /-- `otlp_exporter_emit_log_move` or `otlp_exporter_emit_move`. -/
  | move
  /-- The decrement of `emit_busy`. -/
  | leave
  deriving DecidableEq, Repr

def Emit.counted : Emit → Bool
  | .idle | .door _ | .enter _ => false
  | _ => true

def Emit.inside : Emit → Bool
  | .idle | .door _ | .enter _ | .recheck _ | .leave => false
  | _ => true

def Emit.creating : Emit → Bool
  | .create _ | .unspawn _ => true
  | _ => false

/-- One step of a thread that emits; `ok` says whether what it calls succeeds. -/
def emit_step (g : Live) (ok : Bool) : Emit → Live × Emit
  | .idle => (g, .idle)
  | .door (.json true) => (g, .idle)
  | .door c => (g, if g.door_open then .enter c else .idle)
  | .enter c => ({ g with emit_busy := g.emit_busy + 1 }, .recheck c)
  -- A `NULL` name is refused inside, before anything is read.
  | .recheck (.event true) => (g, .leave)
  | .recheck c => (g, if g.door_open then .running c else .leave)
  | .running c => (g, if g.running then .pointers c else .leave)
  | .pointers (.event null) => (g, if g.exporter then .ensure (.event null) else .leave)
  | .pointers (.json null) => (g, if g.tracer && g.exporter then .ensure (.json null) else .leave)
  | .ensure c => if g.thread_spawned then (g, .prepare c) else ({ g with thread_spawned := true }, .create c)
  | .create c =>
    if ok then ({ g with thread := g.threads.length, threads := g.threads ++ [.check] }, .prepare c)
    else (g, .unspawn c)
  | .unspawn c => ({ g with thread_spawned := false }, .prepare c)
  | .prepare (.event _) => (g, if ok then .move else .leave)
  | .prepare (.json _) => (g, if ok then .span else .leave)
  | .span => (g, if ok then .move else .leave)
  | .move => (g, .leave)
  | .leave => ({ g with emit_busy := g.emit_busy - 1 }, .idle)

def tick_step (g : Live) : Tick → Live × Tick
  | .check => (g, if g.stop_signal then .last else .tick)
  | .tick => (g, .check)
  | .last => (g, .shutdown)
  | .shutdown => (g, .flush)
  | .flush => (g, .finish)
  | .finish => ({ g with running := false }, .ended)
  | .ended => (g, .ended)

def Tick.touches : Tick → Bool
  | .tick | .last | .shutdown | .flush => true
  | _ => false

/-- The next step of `retrace_otlp_live_deinit`. -/
inductive Deinit where
  /-- The test of `running`. -/
  | start
  | close
  /-- The loop that waits for the emitters, after `waits` rounds. -/
  | drain (waits : Nat)
  /-- The store of `stop_signal`. -/
  | stop
  /-- The test of `thread_spawned`. -/
  | decide
  | join
  | stats
  | free_exporter
  | clear_exporter
  | free_tracer
  | clear_tracer
  /-- The store that clears `running`. -/
  | finish
  | returned
  /-- Returned early: the exporter was not running, or the emitters were waited for in vain. -/
  | left
  deriving DecidableEq, Repr

def MAX_WAITS : Nat := 30000

/-- One step of `retrace_otlp_live_deinit`. A join goes on when its thread has ended. -/
def deinit_step (g : Live) : Deinit → Live × Deinit
  | .start => (g, if g.running then .close else .left)
  | .close => ({ g with door_open := false }, .drain 0)
  | .drain waits =>
    if g.emit_busy ≠ 0 ∧ waits < MAX_WAITS then (g, .drain (waits + 1))
    else if MAX_WAITS ≤ waits then (g, .left)
    else (g, .stop)
  | .stop => ({ g with stop_signal := true }, .decide)
  | .decide => (g, if g.thread_spawned then .join else .stats)
  | .join => (g, if g.threads[g.thread]? = some .ended then .stats else .join)
  | .stats => (g, .free_exporter)
  | .free_exporter => ({ g with exporter_freed := true }, .clear_exporter)
  | .clear_exporter => ({ g with exporter := false }, if g.tracer then .free_tracer else .finish)
  | .free_tracer => ({ g with tracer_freed := true }, .clear_tracer)
  | .clear_tracer => ({ g with tracer := false }, .finish)
  | .finish => ({ g with running := false }, .returned)
  | .returned => (g, .returned)
  | .left => (g, .left)

def Deinit.drained : Deinit → Bool
  | .start | .close | .drain _ | .left => false
  | _ => true

def Deinit.decided : Deinit → Bool
  | .start | .close | .drain _ | .stop | .decide | .left => false
  | _ => true

/-- The emitters, the tick threads and the call of `retrace_otlp_live_deinit`. -/
structure World where
  g : Live
  emitters : List Emit
  deinit : Deinit
  deriving DecidableEq, Repr

inductive Act where
  /-- The emitter `i` makes a call. -/
  | call (i : Nat) (c : Call)
  /-- The next step of the emitter `i`; `ok` says whether what it calls succeeds. -/
  | emit (i : Nat) (ok : Bool)
  /-- The next step of the tick thread `j`. -/
  | tick (j : Nat)
  | deinit
  deriving DecidableEq, Repr

def World.step (w : World) : Act → World
  | .call i c =>
    match w.emitters[i]? with
    | some .idle => { w with emitters := w.emitters.set i (.door c) }
    | _ => w
  | .emit i ok =>
    match w.emitters[i]? with
    | some pc => { w with g := (emit_step w.g ok pc).1, emitters := w.emitters.set i (emit_step w.g ok pc).2 }
    | none => w
  | .tick j =>
    match w.g.threads[j]? with
    | some pc => { w with g := { (tick_step w.g pc).1 with threads := w.g.threads.set j (tick_step w.g pc).2 } }
    | none => w
  | .deinit => { w with g := (deinit_step w.g w.deinit).1, deinit := (deinit_step w.g w.deinit).2 }

def World.start (n : Nat) : World := ⟨{}, List.replicate n .idle, .start⟩

def World.touches_exporter (w : World) : Act → Bool
  | .emit i _ => w.emitters[i]? == some .move
  | .tick j => w.g.threads[j]?.any Tick.touches
  | _ => false

def World.touches_tracer (w : World) : Act → Bool
  | .emit i _ => w.emitters[i]? == some .span
  | _ => false

/-- No step touches what was freed, at most one tick thread is running, and none is created behind the
decision of the teardown. -/
structure Safe (w : World) : Prop where
  exporter : ∀ a, w.touches_exporter a = true → w.g.exporter_freed = false
  tracer : ∀ a, w.touches_tracer a = true → w.g.tracer_freed = false
  one_tick : (w.g.threads.filter (· ≠ .ended)).length ≤ 1
  no_create : ∀ a, w.deinit.decided = true → (w.step a).g.threads.length = w.g.threads.length

end Retrace.Otlp
