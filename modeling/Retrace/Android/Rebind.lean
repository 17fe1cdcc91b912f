import Retrace.CLib.CString
import Mathlib.Logic.Function.Basic

/-!
# The slots that are rebound

`rebind_table` of `android_rebind.c` and the table of real implementations that it fills: every slot of
the executable whose symbol has a trampoline in this library is pointed there, and what the symbol
resolves to is recorded by its name for the calls that pass through. `Env` is what the loop finds and does
not change.
-/

namespace Retrace.Android

open CLib

structure Rela where
  r_offset : UInt64
  symidx : Nat
  type : Nat

def ALIAS_SIZE : Nat := 96

def REAL_NAME_SIZE : Nat := 40

def REALS_MAX : Nat := 512

/-- The visible alias of a function, as far as it fits. -/
def wrap_alias (name : Bytes) : Bytes := (bytes "__retrace_wrap_" ++ name).take (ALIAS_SIZE - 1)

/-- The bases of the executable and of this library, the tables of the executable, what `dlsym` and
`retrace_as_get_real_safe` return, and the slots whose page `mprotect` makes writable. The library has trampolines
for the functions of `funcs_symbols.def`, whose names have at most 32 bytes. -/
structure Env where
  exec_base : UInt64
  self_base : UInt64
  self_end : UInt64
  st_name : Nat → Nat
  strtab : Bytes
  dlsym : Bytes → Option UInt64
  get_real : Bytes → Option UInt64
  mprotect : UInt64 → Bool
  short : ∀ name ours, dlsym (wrap_alias name) = some ours → self_base ≤ ours → ours < self_end → name.length ≤ 32

def R_AARCH64_GLOB_DAT : Nat := 1025

def R_AARCH64_JUMP_SLOT : Nat := 1026

def rebind_excluded : List Bytes :=
  ["pthread_once", "dlopen", "dlsym", "dlclose", "dladdr", "dl_iterate_phdr", "dlerror", "__loader_dlopen",
   "__loader_dlsym", "__loader_dlclose", "__loader_dladdr", "__loader_dl_iterate_phdr", "__loader_dlerror",
   "__cxa_atexit", "__cxa_finalize", "atexit", "exit", "_exit", "_Exit"].map bytes

structure Target where
  slot : UInt64
  name : Bytes
  ours : UInt64
  real : UInt64

/-- The checks of an entry in front of `reals_add`: its slot, the name of its symbol, the trampoline and
the real one. -/
def Env.target (env : Env) (rela : Rela) : Option Target :=
  let name := cstr (env.strtab.drop (env.st_name rela.symidx))
  if rela.type ≠ R_AARCH64_JUMP_SLOT ∧ rela.type ≠ R_AARCH64_GLOB_DAT then none
  else if env.st_name rela.symidx = 0 ∨ name = [] ∨ name ∈ rebind_excluded then none
  else
    match env.dlsym (wrap_alias name), env.get_real name with
    | some ours, some real =>
      if ours < env.self_base ∨ env.self_end ≤ ours ∨ rela.r_offset < 0x1000 then none
      else some ⟨env.exec_base + rela.r_offset, name, ours, real⟩
    | _, _ => none

/-- `reals` is `g_reals`; `rebound` are the slots that were overwritten, with the name of their symbol. -/
structure State where
  slots : UInt64 → UInt64
  reals : List (Bytes × UInt64) := []
  rebound : List (UInt64 × Bytes) := []

def reals_add (reals : List (Bytes × UInt64)) (name : Bytes) (real : UInt64) : List (Bytes × UInt64) :=
  if REALS_MAX ≤ reals.length then reals else reals ++ [(name.take (REAL_NAME_SIZE - 1), real)]

def rebind_entry (env : Env) (st : State) (rela : Rela) : State :=
  match env.target rela with
  | none => st
  | some t =>
    let reals := reals_add st.reals t.name t.real
    if st.slots t.slot = t.ours ∨ env.mprotect t.slot = false then { st with reals := reals }
    else ⟨Function.update st.slots t.slot t.ours, reals, st.rebound ++ [(t.slot, t.name)]⟩

def rebind_table (env : Env) (st : State) (table : List Rela) : State := table.foldl (rebind_entry env) st

/-- The tables in the order of `retrace_android_rebind`. -/
def retrace_android_rebind (env : Env) (slots : UInt64 → UInt64) (tables : List (List Rela)) : State :=
  tables.foldl (rebind_table env) { slots := slots }

def retrace_android_real_for (reals : List (Bytes × UInt64)) (name : Bytes) : Option UInt64 :=
  (reals.find? (·.1 == name)).map Prod.snd

/-- Every slot that was overwritten has its real implementation on record. -/
def RealsKept (env : Env) (st : State) : Prop :=
  ∀ x ∈ st.rebound, retrace_android_real_for st.reals x.2 = env.get_real x.2

/-- The entries that come to `reals_add`, in order. -/
def Env.recorded (env : Env) (tables : List (List Rela)) : List Target := tables.flatten.filterMap env.target

/-- What a slot whose page can be written holds after the entries `ts`: the trampoline of the last one for it. -/
def held (slots : UInt64 → UInt64) (ts : List Target) (slot : UInt64) : UInt64 :=
  ((ts.filter (·.slot = slot)).getLast?.map Target.ours).getD (slots slot)

/-- The slot of `t` can be written and does not hold the trampoline after the entries `ts`. -/
def Env.Overwrites (env : Env) (slots : UInt64 → UInt64) (ts : List Target) (t : Target) : Prop :=
  env.mprotect t.slot = true ∧ held slots ts t.slot ≠ t.ours

end Retrace.Android
