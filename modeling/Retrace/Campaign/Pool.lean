import Retrace.Campaign.Model
import Retrace.Runs.Runs

/-!
# The worker pool

`campaign.c`: every worker takes the next cell, pushes its policy, spawns its sample and polls the journal
for an exit record with the process number it got. Pushing and spawning are commands of their own, and the
commands of the workers interleave in any order. The daemon has one active policy, the last one that was
pushed. Processes exit at any time, and the daemon writes an exit record for each.

The process number of the `k`-th process that is spawned is `pids k`; a number is not given to a process
while another one has it.
-/

namespace Retrace.Campaign

open CLib

/-- A `retrace.ctl.exit` record: the process number, how it ended and its code. -/
structure ExitRecord where
  pid : Nat
  signaled : Bool
  code : Int
  deriving DecidableEq, Repr

/-- What the query of `await_exit` finds: the last exit record with this process number, and where it
stands. -/
def last_exit (journal : List ExitRecord) (pid : Nat) : Option (ExitRecord × Nat) :=
  (journal.zipIdx.filter fun r => r.1.pid == pid).getLast?

structure RunResult where
  cell : Nat
  pid : Nat := 0
  done : Bool := false
  signaled : Bool := false
  code : Int := 0
  push_ok : Bool := false
  spawn_ok : Bool := false
  deriving DecidableEq, Repr

/-- Where a worker is: in front of the lock, in front of a command of its cell, or waiting for an exit record;
`mark` is how many records the journal had when its sample was spawned. -/
inductive Worker where
  | idle
  | push (cell : Nat)
  | spawn (cell : Nat)
  | await (cell pid mark : Nat)
  | ended
  deriving DecidableEq, Repr

def Worker.pending : Worker → Bool
  | .push _ | .spawn _ => true
  | _ => false

def Plan.policy_of (c : Plan) (cell : Nat) : Option Bytes :=
  (c.cells[cell]?.bind fun x => c.policies[x.policy]?).map Policy.path

def Plan.workers (c : Plan) : Nat := max 1 (min c.concurrency 64)

/-- The workers, the daemon, and what has happened: the policy that was active at each spawn, and the record
that each verdict was read from, with the mark of its spawn. -/
structure Pool where
  next_cell : Nat
  workers : List Worker
  results : List RunResult
  active : Option Bytes
  journal : List ExitRecord
  live : List Nat
  spawned : Nat
  spawns : List (Nat × Option Bytes)
  verdicts : List (Nat × Nat × Nat)

inductive Act where
  | take (w : Nat)
  | push (w : Nat) (ok : Bool)
  | spawn (w : Nat) (ok : Bool)
  | poll (w : Nat)
  | timeout (w : Nat)
  | exit (pid : Nat) (signaled : Bool) (code : Int)
  deriving DecidableEq, Repr

def Pool.set (s : Pool) (w : Nat) (pc : Worker) : Pool := { s with workers := s.workers.set w pc }

def Pool.result (s : Pool) (cell : Nat) (f : RunResult → RunResult) : Pool :=
  { s with results := s.results.modify cell f }

def take_cell (c : Plan) (s : Pool) (w : Nat) : Pool :=
  if s.next_cell < c.cells.length then
    { s.set w (.push s.next_cell) with next_cell := s.next_cell + 1 }.result s.next_cell fun _ =>
      { cell := s.next_cell }
  else s.set w .ended

def push_policy (c : Plan) (s : Pool) (w cell : Nat) (ok : Bool) : Pool :=
  if ok then
    { s.set w (.spawn cell) with active := c.policy_of cell }.result cell ({ · with push_ok := true })
  else s.set w .idle

/-- The command `spawn` of `run_cell`. A process number of 0 is a reply without one. -/
def spawn_sample (pids : Nat → Nat) (s : Pool) (w cell : Nat) (ok : Bool) : Pool :=
  let pid := pids s.spawned
  if ok then
    if pid ∈ s.live then s
    else
      { s.set w (if 0 < pid then .await cell pid s.journal.length else .idle) with
        live := s.live ++ [pid], spawned := s.spawned + 1, spawns := s.spawns ++ [(cell, s.active)] }.result cell
        ({ · with spawn_ok := true, pid := pid })
  else s.set w .idle

def poll_exit (s : Pool) (w cell pid mark : Nat) : Pool :=
  match last_exit s.journal pid with
  | none => s
  | some (r, i) =>
    { s.set w .idle with verdicts := s.verdicts ++ [(cell, i, mark)] }.result cell
      ({ · with done := true, signaled := r.signaled, code := r.code })

def Pool.step (c : Plan) (pids : Nat → Nat) (s : Pool) : Act → Pool
  | .take w =>
    match s.workers[w]? with
    | some .idle => take_cell c s w
    | _ => s
  | .push w ok =>
    match s.workers[w]? with
    | some (.push cell) => push_policy c s w cell ok
    | _ => s
  | .spawn w ok =>
    match s.workers[w]? with
    | some (.spawn cell) => spawn_sample pids s w cell ok
    | _ => s
  | .poll w =>
    match s.workers[w]? with
    | some (.await cell pid mark) => poll_exit s w cell pid mark
    | _ => s
  | .timeout w =>
    match s.workers[w]? with
    | some (.await _ _ _) => s.set w .idle
    | _ => s
  | .exit pid signaled code =>
    if pid ∈ s.live then
      { s with live := s.live.erase pid, journal := s.journal ++ [⟨pid, signaled, code⟩] }
    else s

def Pool.start (c : Plan) (active : Option Bytes) (journal : List ExitRecord) : Pool where
  next_cell := 0
  workers := List.replicate c.workers .idle
  results := List.replicate c.cells.length { cell := 0 }
  active := active
  journal := journal
  live := []
  spawned := 0
  spawns := []
  verdicts := []

/-- Every sample was spawned under the policy of its cell, and every verdict was read from a record that was
written behind the spawn. -/
structure CellsRight (c : Plan) (s : Pool) : Prop where
  spawns : ∀ x ∈ s.spawns, x.2 = c.policy_of x.1
  verdicts : ∀ x ∈ s.verdicts, x.2.2 ≤ x.2.1

def SamePolicy (c : Plan) : Prop :=
  ∀ i < c.cells.length, ∀ j < c.cells.length, c.policy_of i = c.policy_of j

def FreshPids (c : Plan) (journal : List ExitRecord) (pids : Nat → Nat) : Prop :=
  ∀ k < c.cells.length, 0 < pids k → (∀ r ∈ journal, r.pid ≠ pids k) ∧ ∀ j < k, pids j ≠ pids k

end Retrace.Campaign
