import Retrace.Core.PathSet

/-!
# The sandbox action

`ia_sandbox` of `sandbox.c`: the first string among the first two arguments of a call is held against the
lists of the policy. A refused call returns what its prototype says for an error; instead of a refusal a read can
be led to a decoy. The strings that pointers point to are given by the memory.
-/

namespace Retrace.Core

open CLib

abbrev Word := BitVec 64

abbrev Memory := Word → Bytes

/-- The parts of `struct ParamMeta` that actions read: whether `CDM_POINTER` is set, and the type pointed to. -/
structure ParamMeta where
  name : Bytes
  pointer : Bool
  ref_type_name : Bytes
deriving DecidableEq

structure FuncPrototype where
  name : Bytes
  type_name : Bytes
  params : List ParamMeta
deriving DecidableEq

structure FuncParam where
  param_meta : ParamMeta
  val : Word
  free_val : Bool := false
deriving DecidableEq

structure ThreadContext where
  prototype : FuncPrototype
  params : List FuncParam
  ret_val : Int := 0
  ret_errno : Int := 0

structure SandboxParams where
  deny_paths : Option PolicyArray := none
  allow_paths : Option PolicyArray := none
  deny_classes : Option PolicyArray := none
  allow_env : Option PolicyArray := none
  deny_env : Option PolicyArray := none
  decoy_dir : Option Bytes := none

def EACCES : Int := 13

/-- The attributes of a `retrace.jail.denied` event. -/
structure JailDenied where
  path : Bytes
  reason : Bytes
  func : Bytes
deriving DecidableEq

structure SandboxResult where
  ret : Int
  t_ctx : ThreadContext
  mem : Memory
  denied : Option JailDenied

def g_write_funcs : List Bytes :=
  [bytes "unlink", bytes "unlinkat", bytes "rename", bytes "renameat", bytes "renameat2", bytes "remove",
    bytes "link", bytes "linkat", bytes "symlink", bytes "symlinkat", bytes "mkdir",
      bytes "mkdirat", bytes "rmdir",
    bytes "truncate", bytes "ftruncate", bytes "creat", bytes "chmod", bytes "fchmod", bytes "fchmodat",
    bytes "chown", bytes "lchown", bytes "fchownat", bytes "NtWriteFile"]

def is_write_func (name : Bytes) : Bool := g_write_funcs.contains name

def mode_writes (mode : Bytes) : Bool := mode.any fun c => c == 119 || c == 97 || c == 43

def access_writes (flags : Word) : Bool := (flags &&& 3) == 1 || (flags &&& 3) == 2

def call_is_write (mem : Memory) (t_ctx : ThreadContext) : Bool :=
  let name := t_ctx.prototype.name
  if is_write_func name then true
  else if name = bytes "fopen" ∧ 1 < t_ctx.params.length then
    t_ctx.params[1]?.any fun mode => mode.param_meta.pointer && mode.val != 0 && mode_writes (mem mode.val)
  else if (name = bytes "open" ∨ name = bytes "openat") ∧ 1 < t_ctx.params.length then
    t_ctx.params[1]?.any fun p => access_writes p.val
  else false

def classes_deny (mem : Memory) (t_ctx : ThreadContext) (deny_classes : PolicyArray) : Bool :=
  call_is_write mem t_ctx && deny_classes.any (· == some (bytes "write"))

def g_env_funcs : List Bytes :=
  [bytes "getenv", bytes "setenv", bytes "putenv", bytes "unsetenv", bytes "_putenv"]

def is_env_func (name : Bytes) : Bool := g_env_funcs.contains name

def deny_ret (t_ctx : ThreadContext) : Int := if t_ctx.prototype.type_name = bytes "ptr" then 0 else -1

def deny (mem : Memory) (t_ctx : ThreadContext) (why arg : Bytes) : SandboxResult where
  ret := -1
  t_ctx := { t_ctx with ret_errno := EACCES, ret_val := deny_ret t_ctx }
  mem := mem
  denied := some ⟨arg, why, t_ctx.prototype.name⟩

def base_name (path : Bytes) : Bytes := (path.reverse.takeWhile fun c => !(c == 47 || c == 92)).reverse

def decoy (mem : Memory) (fake : Option Word) (t_ctx : ThreadContext) (arg_idx : Nat)
    (path_arg decoy_dir : Bytes) :
    Option SandboxResult :=
  fake.map fun addr => {
    ret := 0
    t_ctx := { t_ctx with
      params := t_ctx.params.modify arg_idx fun p => { p with val := addr, free_val := true } }
    mem := Function.update mem addr (decoy_dir ++ 47 :: base_name path_arg)
    denied := none }

/-- The parameter is a string: a pointer to `sz` that is not null. -/
def FuncParam.isString (p : FuncParam) : Bool :=
  p.param_meta.pointer && p.val != 0 && p.param_meta.ref_type_name == bytes "sz"

def find_path_arg (mem : Memory) (params : List FuncParam) : Option (Nat × Bytes) :=
  ((params.take 2).findIdx? FuncParam.isString).bind fun i => params[i]?.map fun p => (i, mem p.val)

def refuse (mem : Memory) (fake : Option Word) (t_ctx : ThreadContext) (decoy_dir : Option Bytes)
    (path_idx : Nat) (path_arg why : Bytes) : SandboxResult :=
  match decoy_dir with
  | some dir =>
    if call_is_write mem t_ctx = false then
      (decoy mem fake t_ctx path_idx path_arg dir).getD (deny mem t_ctx why path_arg)
    else deny mem t_ctx why path_arg
  | none => deny mem t_ctx why path_arg

def check_paths (mem : Memory) (fake : Option Word) (t_ctx : ThreadContext) (action_params : SandboxParams)
    (path_idx : Nat) (path_arg : Bytes) : SandboxResult :=
  if action_params.allow_paths.any fun list => !fresh_contains path_arg list then
    refuse mem fake t_ctx action_params.decoy_dir path_idx path_arg (bytes "not in allow_paths")
  else if action_params.deny_paths.any fun list => fresh_contains path_arg list then
    refuse mem fake t_ctx action_params.decoy_dir path_idx path_arg (bytes "matches deny_paths")
  else ⟨0, t_ctx, mem, none⟩

def check_env (t_ctx : ThreadContext) (action_params : SandboxParams) (path_arg : Option Bytes) : Option Bytes :=
  path_arg.bind fun name =>
    if is_env_func t_ctx.prototype.name then
      if action_params.deny_env.any fun list => fresh_contains name list then some (bytes "deny_env")
      else if action_params.allow_env.any fun list =>
        !fresh_contains name list then some (bytes "not in allow_env")
      else none
    else none

def ia_sandbox (mem : Memory) (fake : Option Word) (t_ctx : ThreadContext) (action_params : Option SandboxParams) :
    SandboxResult :=
  match action_params with
  | none => ⟨-1, { t_ctx with ret_val := -1 }, mem, none⟩
  | some ps =>
    if ps.deny_paths = none ∧ ps.allow_paths = none ∧ ps.deny_classes = none ∧ ps.allow_env = none ∧
        ps.deny_env = none then
      ⟨-1, { t_ctx with ret_val := -1 }, mem, none⟩
    else
      let found := find_path_arg mem t_ctx.params
      if ps.deny_classes.any (classes_deny mem t_ctx) then
        deny mem t_ctx (bytes "write-class") ((found.map Prod.snd).getD t_ctx.prototype.name)
      else
        match check_env t_ctx ps (found.map Prod.snd) with
        | some why => deny mem t_ctx why ((found.map Prod.snd).getD [])
        | none =>
          match found with
          | none => ⟨0, t_ctx, mem, none⟩
          | some (path_idx, path_arg) => check_paths mem fake t_ctx ps path_idx path_arg

def szParam (name : Bytes) : ParamMeta := ⟨name, true, bytes "sz"⟩

def plainParam (name : Bytes) : ParamMeta := ⟨name, false, []⟩

def fopen_prototype : FuncPrototype :=
  ⟨bytes "fopen", bytes "ptr", [szParam (bytes "filename"), szParam (bytes "mode")]⟩

def open_prototype : FuncPrototype :=
  ⟨bytes "open", bytes "int", [szParam (bytes "path"), plainParam (bytes "flags")]⟩

def openat_prototype : FuncPrototype :=
  ⟨bytes "openat", bytes "int", [plainParam (bytes "dirfd"), szParam (bytes "path"), plainParam (bytes "flags")]⟩

def link_prototype : FuncPrototype :=
  ⟨bytes "link", bytes "int", [szParam (bytes "oldpath"), szParam (bytes "newpath"), plainParam (bytes "owner")]⟩

def CallOf (prototype : FuncPrototype) (t_ctx : ThreadContext) : Prop :=
  t_ctx.prototype = prototype ∧ t_ctx.params.map FuncParam.param_meta = prototype.params

end Retrace.Core
