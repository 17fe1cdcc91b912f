import Mathlib.Data.List.Basic

/-!
# The syscall lane

`trace_loop.c` with the operations of `as_ptrace.c`. At an entry stop the engine runs the actions of the script
for the call; registers can be read and written. Written arguments are left out.
-/

namespace Retrace.Ptrace

inductive Arch where
  | x86_64
  | aarch64
  deriving DecidableEq

def getpid_number : Arch → Int
  | .x86_64 => 39
  | .aarch64 => 172

def PTRACE_RET_DEFERRED : Int := 4503599627370497

structure Frame where
  skip_real : Bool := false
  forced_retval : Int := 0
  exit_override : Bool := false
  exit_retval : Int := 0
  deriving DecidableEq

/-- The error of a call that is denied with -1: the one recorded with the denial, else `errno`, else `EPERM`. -/
def deny_errno (ret_errno : Option Int) (errno : Int) : Int :=
  match ret_errno with
  | some e => if 0 < e ∧ e < 4096 then e else if errno ≤ 0 ∨ 4096 ≤ errno then 1 else errno
  | none => if errno ≤ 0 ∨ 4096 ≤ errno then 1 else errno

def ptrace_sched_real (frame : Frame) : Frame := { frame with skip_real := false }

def ptrace_cancel_sched_real (frame : Frame) : Frame := { frame with skip_real := true, forced_retval := -38 }

def ptrace_set_ret_val (frame : Frame) (ret_val e : Int) : Frame :=
  if frame.skip_real = false then
    if ret_val ≠ PTRACE_RET_DEFERRED then { frame with exit_override := true, exit_retval := ret_val } else frame
  else { frame with forced_retval := if ret_val = -1 then -e else ret_val }

inductive Action where
  | call_real
  | modify_return (value : Int)
  deriving DecidableEq

def run_action (s : Frame × Int) : Action → Frame × Int
  | .call_real => (ptrace_sched_real s.1, PTRACE_RET_DEFERRED)
  | .modify_return value => (s.1, value)

/-- What the engine finds for a call: no prototype, no real implementation, no script, or the actions of a
script and the error that is current behind them. -/
inductive Dispatch where
  | unknown
  | no_real
  | unscripted
  | script (actions : List Action) (ret_errno : Option Int) (errno : Int)
  deriving DecidableEq

def retrace_engine_wrapper : Dispatch → Frame
  | .unknown => {}
  -- the call is aborted with -1, before anything is scheduled
  | .no_real => ptrace_set_ret_val {} (-1) (deny_errno none 0)
  | .unscripted => ptrace_sched_real {}
  | .script actions ret_errno errno =>
    let s := actions.foldl run_action (ptrace_cancel_sched_real (ptrace_sched_real {}), 0)
    ptrace_set_ret_val s.1 s.2 (deny_errno ret_errno errno)

/-- The stops of a tracee; the dispatch is what the engine would find there. -/
inductive Stop where
  | entry (dispatch : Dispatch)
  | exit (dispatch : Dispatch)
  | exec
  | signal (sig : Nat)
  deriving DecidableEq

def Stop.stopsig : Stop → Nat
  | .entry _ | .exit _ => 0x85
  | .exec => 5
  | .signal sig => sig

def Stop.ptrace_event : Stop → Nat
  | .exec => 4
  | _ => 0

def Stop.dispatch : Stop → Dispatch
  | .entry d | .exit d => d
  | .exec | .signal _ => .unknown

inductive Effect where
  | set_syscall_nr (nr : Int)
  | set_retval (value : Int)
  /-- `PTRACE_SYSCALL` with the signal that is delivered. -/
  | resume (sig : Nat)
  deriving DecidableEq

structure Loop where
  in_syscall : Bool := false
  frame : Frame := {}
  deriving DecidableEq

/-- One round of `retrace_ptrace_trace_loop`. A status does not say whether a call begins or ends. -/
def trace_step (arch : Arch) (s : Loop) (stop : Stop) : Loop × List Effect :=
  let is_syscall_stop := stop.stopsig &&& 0x80 ≠ 0
  if is_syscall_stop ∧ s.in_syscall = false then
    let frame := retrace_engine_wrapper stop.dispatch
    let benign := getpid_number arch
    if frame.skip_real = true ∧ ¬ benign < 0 then
      (⟨true, { frame with exit_override := true, exit_retval := frame.forced_retval }⟩,
        [.set_syscall_nr benign, .resume 0])
    else (⟨true, frame⟩, [.resume 0])
  else if is_syscall_stop then
    if s.frame.exit_override then
      (⟨false, { s.frame with exit_override := false }⟩, [.set_retval s.frame.exit_retval, .resume 0])
    else (⟨false, s.frame⟩, [.resume 0])
  else if stop.stopsig = 5 ∧ stop.ptrace_event = 4 then (s, [.resume 0])
  else (s, [.resume stop.stopsig])

/-- What the loop does at each stop. -/
def trace_loop (arch : Arch) : Loop → List Stop → List (List Effect)
  | _, [] => []
  | s, stop :: stops => (trace_step arch s stop).2 :: trace_loop arch (trace_step arch s stop).1 stops

/-! ## What is to happen -/

def Alternates : Bool → List Stop → Prop
  | _, [] => True
  | b, .entry _ :: stops => b = false ∧ Alternates true stops
  | b, .exit _ :: stops => b = true ∧ Alternates false stops
  | b, .exec :: stops => Alternates b stops
  | b, .signal sig :: stops => sig ≤ 64 ∧ Alternates b stops

/-- What a script decides: whether the call runs, and the value it is to return. -/
def decide_action (s : Bool × Option Int) : Action → Bool × Option Int
  | .call_real => (true, none)
  | .modify_return value => (s.1, some value)

def decided : Dispatch → Bool × Option Int
  | .script actions ret_errno errno =>
    let s := actions.foldl decide_action (false, some 0)
    (s.1, if s = (false, some (-1)) then some (-deny_errno ret_errno errno) else s.2)
  | .no_real => (true, some (-1))
  | _ => (true, none)

/-- The effects that serve the decisions: `pending` is the value for the exit that comes next. -/
def served (arch : Arch) : Option Int → List Stop → List (List Effect)
  | _, [] => []
  | _, .entry d :: stops =>
    (if (decided d).1 then [.resume 0] else [.set_syscall_nr (getpid_number arch), .resume 0]) ::
      served arch (decided d).2 stops
  | pending, .exit _ :: stops =>
    ((pending.map Effect.set_retval).toList ++ [.resume 0]) :: served arch none stops
  | pending, .exec :: stops => [.resume 0] :: served arch pending stops
  | pending, .signal sig :: stops => [.resume sig] :: served arch pending stops

/-- No script gives an allowed call the value that stands for none. -/
def Clear (stops : List Stop) : Prop :=
  ∀ d, .entry d ∈ stops → decided d ≠ (true, some PTRACE_RET_DEFERRED)

end Retrace.Ptrace
