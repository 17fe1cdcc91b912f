import Retrace.CLib.CString

/-!
# The environment of a spawned process

The part of `ctl_spawn_win` that copies the parent's environment block, without the variables that arm the
process and with the directory of the DLL in front of `PATH`, into a buffer of 32768 bytes.
-/

namespace Retrace.Pipe

open CLib

def ENV_SIZE : Nat := 32768

def arming_names : List Bytes :=
  ["RETRACE_SUPERVISOR", "RETRACE_SUPERVISOR_SOCK", "RETRACE_SUPERVISOR_NONCE",
    "RETRACE_SUPERVISOR_EAGER"].map bytes

/-- The four variables with their values. -/
def arming (agent_pipe nonce : Bytes) : List Bytes :=
  List.zipWith (fun name val => name ++ bytes "=" ++ val) arming_names [bytes "1", agent_pipe, nonce, bytes "1"]

def is_arming (e : Bytes) : Bool := arming_names.any fun name => (name ++ bytes "=").isPrefixOf e

/-- `_strnicmp(e, "PATH=", 5) == 0`. -/
def is_path (e : Bytes) : Bool := (e.take 5).map tolower == bytes "path="

/-- What stands in front of the last backslash of the path, if there is one. -/
def dll_dir (dll_path : Bytes) : Bytes := (dll_path.reverse.dropWhile (· ≠ backslash)).tail.reverse

/-- The loop over the parent's block, with `var` read of the current variable: what has been written, and
`saw_path`. -/
def copy_loop (dir : Bytes) : Bytes → Bytes → Bytes → Bool → Option (Bytes × Bool)
  | [], _, env, saw_path => some (env, saw_path)
  | c :: e, var, env, saw_path =>
    if c ≠ 0 then copy_loop dir e (var ++ [c]) env saw_path
    else if var = [] then some (env, saw_path)
    else if is_arming var then copy_loop dir e [] env saw_path
    else if dir ≠ [] ∧ is_path var then
      if ENV_SIZE ≤ env.length + (5 + dir.length + var.length + 3) then none
      else copy_loop dir e [] (env ++ bytes "PATH=" ++ dir ++ bytes ";" ++ var ++ [0]) true
    else if ENV_SIZE ≤ env.length + var.length + 1 + 1 then none
    else copy_loop dir e [] (env ++ var ++ [0]) saw_path

def arm_loop : List Bytes → Bytes → Option Bytes
  | [], env => some (env ++ [0])
  | var :: rest, env => if ENV_SIZE ≤ env.length + var.length + 2 then none else arm_loop rest (env ++ var ++ [0])

/-- The block for the new process; `none` is the refusal `env too long`. -/
def spawn_env (env_all dll_path agent_pipe nonce : Bytes) : Option Bytes :=
  (copy_loop (dll_dir dll_path) env_all [] [] false).bind fun (env, saw_path) =>
    if dll_dir dll_path ≠ [] ∧ saw_path = false then
      if ENV_SIZE ≤ env.length + 5 + (dll_dir dll_path).length + 2 then none
      else arm_loop (arming agent_pipe nonce) (env ++ bytes "PATH=" ++ dll_dir dll_path ++ [0])
    else arm_loop (arming agent_pipe nonce) env

/-- The variables of an environment block, each with its NUL, and the NUL behind the last one. -/
def block (vars : List Bytes) : Bytes := vars.flatMap (· ++ [0]) ++ [0]

structure Environment where
  vars : List Bytes
  not_empty : ∀ v ∈ vars, v ≠ []
  no_nul : ∀ v ∈ vars, 0 ∉ v

/-- The variables that do not have one of the four names. -/
def kept (vars : List Bytes) : List Bytes := vars.filter fun v => !is_arming v

def with_dir (dir v : Bytes) : Bytes := if is_path v then v.take 5 ++ dir ++ bytes ";" ++ v.drop 5 else v

/-- The parent's variables without the four names, with `dir` in front of the value of `PATH`, or as its
value when there is none, and the four variables behind them. -/
def armed (parent : Environment) (dll_path agent_pipe nonce : Bytes) : List Bytes :=
  (kept parent.vars).map (with_dir (dll_dir dll_path)) ++
    (if (kept parent.vars).any is_path then [] else [bytes "PATH=" ++ dll_dir dll_path]) ++ arming agent_pipe nonce

end Retrace.Pipe
