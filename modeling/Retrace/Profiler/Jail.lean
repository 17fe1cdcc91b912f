import Retrace.Core.ScriptResolver
import Retrace.Core.Sandbox
import Retrace.Enforce.Spec

/-!
# Jails

`jail.c` of the profiler writes a config from a profile: a sandbox script for each function, and a script that
pins the clock. The engine looks up the script of a call and runs its actions.
-/

namespace Retrace.Profiler

open CLib Parson Retrace.Core Enforce

structure ProfJailOpts where
  read_only : Bool := false
  decoy_dir : Option Bytes := none
  pin_clock : Int64 := 0
  pin_clock_set : Bool := false

def jail_params (paths_src : Profile) (opts : Option ProfJailOpts) : JsonObject :=
  let allow := (paths_src.accesses.map ProfAccess.path).foldl json_array_append_string []
  let params := json_object_set_value [] (bytes "allow_paths") (.array allow)
  let params :=
    if opts.any ProfJailOpts.read_only then
      json_object_set_value params (bytes "deny_classes") (.array (json_array_append_string [] (bytes "write")))
    else params
  match opts.bind ProfJailOpts.decoy_dir with
  | none => params
  | some dir => json_object_set_string params (bytes "decoy_dir") dir

def jail_script (paths_src : Profile) (opts : Option ProfJailOpts) (name : Bytes) : JsonObject :=
  let action := json_object_set_value (json_object_set_string [] (bytes "action_name") (bytes "sandbox"))
    (bytes "action_params") (.object (jail_params paths_src opts))
  let cr := json_object_set_string [] (bytes "action_name") (bytes "call_real")
  json_object_set_value (json_object_set_string [] (bytes "func_name") name) (bytes "actions")
    (.array [.object action, .object cr])

def pin_script (pin_clock : Int64) : JsonObject :=
  let mr := json_object_set_number
    (json_object_set_string [] (bytes "action_name") (bytes "modify_return_value_int"))
    (bytes "new_int") (roundDouble pin_clock.toInt)
  json_object_set_value (json_object_set_string [] (bytes "func_name") (bytes "time")) (bytes "actions")
    (.array [.object mr])

def jail_scripts (funcs_src paths_src : Profile) (opts : Option ProfJailOpts) : List JsonObject :=
  funcs_src.functions.map (fun f => jail_script paths_src opts f.name) ++
    match opts with
    | some o => if o.pin_clock_set then [pin_script o.pin_clock] else []
    | none => []

def prof_jail_config (funcs_src paths_src : Profile) (opts : Option ProfJailOpts) : JsonObject :=
  json_object_set_value [] (bytes "intercept_scripts")
    (.array ((jail_scripts funcs_src paths_src opts).map .object))

structure CallState where
  t_ctx : ThreadContext
  mem : Memory

/-- An action: the result, where 0 goes on with the script. -/
abbrev Action := CallState → Option JsonObject → Int × CallState

def policy_array (ps : JsonObject) (name : Bytes) : Option PolicyArray :=
  (json_object_get_array (some ps) name).map fun a => a.map item_string

def sandbox_params (ps : JsonObject) : SandboxParams where
  deny_paths := policy_array ps (bytes "deny_paths")
  allow_paths := policy_array ps (bytes "allow_paths")
  deny_classes := policy_array ps (bytes "deny_classes")
  allow_env := policy_array ps (bytes "allow_env")
  deny_env := policy_array ps (bytes "deny_env")
  decoy_dir := json_object_get_string (some ps) (bytes "decoy_dir")

def ia_modify_return_value_int : Action := fun s action_params =>
  match action_params with
  | none => (-1, s)
  | some ps =>
    if (json_object_get_value (some ps) (bytes "retval_int")).isNone then (-1, s)
    else
      let new_int := json_object_get_number (some ps) (bytes "retval_int")
      (0, { s with t_ctx := { s.t_ctx with ret_val := (doubleToLong new_int).toInt } })

/-- What a call depends on outside the config: the real function, the block for a decoy, and the other actions. -/
structure Surroundings where
  real_impl : CallState → Int
  fake : Option Word
  others : Bytes → Option Action

section

variable (env : Surroundings)

def sandbox_action : Action := fun s action_params =>
  let r := ia_sandbox s.mem env.fake s.t_ctx (action_params.map sandbox_params)
  (r.ret, ⟨r.t_ctx, r.mem⟩)

def ia_call_real : Action := fun s _ => (0, { s with t_ctx := { s.t_ctx with ret_val := env.real_impl s } })

def retrace_actions_get (name : Bytes) : Option Action :=
  if name = bytes "sandbox" then some (sandbox_action env)
  else if name = bytes "call_real" then some (ia_call_real env)
  else if name = bytes "modify_return_value_int" then some ia_modify_return_value_int
  else env.others name

def action_loop : List JsonValue → CallState → CallState
  | [], s => s
  | v :: rest, s =>
    let i_action := json_value_get_object v
    match json_object_get_string i_action (bytes "action_name") with
    | none => s
    | some name =>
      match retrace_actions_get env name with
      | none => s
      | some action_func =>
        let r := action_func s (json_object_get_object i_action (bytes "action_params"))
        if r.1 ≠ 0 then r.2 else action_loop rest r.2

def retrace_action_runner_run (s : CallState) (i_script : JsonObject) : CallState :=
  match json_object_get_array (some i_script) (bytes "actions") with
  | none => s
  | some i_actions => action_loop env i_actions s

/-- What an intercepted call returns: the part of `retrace_engine_wrapper` from the lookup of the script on, with
the config and the cache made from it. -/
def retrace_engine_wrapper (alloc : CacheAlloc) (dladdr : UInt64 → Option DlInfo) (ret_addr : UInt64)
    (conf : JsonObject) (s : CallState) : Option Int :=
  match json_object_get_array (some conf) (bytes "intercept_scripts") with
  | none => some (env.real_impl s)
  | some i_scripts =>
    (retrace_script_find dladdr ret_addr (retrace_config_cache_build alloc (some conf)) i_scripts
      s.t_ctx.prototype.name).map fun
      | none => env.real_impl s
      | some i_script => (retrace_action_runner_run env s i_script).t_ctx.ret_val

end

def time_prototype : FuncPrototype := ⟨bytes "time", bytes "long", [⟨bytes "tloc", true, bytes "long"⟩]⟩

/-- Every call of `time` returns the clock that the config was made for. A call starts from a cleared context. -/
def ClockPinned (funcs_src paths_src : Profile) (opts : ProfJailOpts) : Prop :=
  ∀ env alloc dladdr ret_addr s, CallOf time_prototype s.t_ctx → s.t_ctx.ret_val = 0 →
    retrace_engine_wrapper env alloc dladdr ret_addr (prof_jail_config funcs_src paths_src (some opts)) s =
      some opts.pin_clock.toInt

end Retrace.Profiler
