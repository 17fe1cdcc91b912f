import Retrace.Core.ConfigCache

/-!
# Which script a call runs

`script_resolver.c` and `caller_match.c`: the script for a function and the return address of the call. A
script can ask for callers in `caller_matches` or for one return address in `return_addr`. The first script
with the function's name is looked up in the config cache; when it asks for nothing it is the answer, and
otherwise the scripts are gone through in order.
-/

namespace Retrace.Core

open CLib Parson

/-- `rc_dl_info_t`, what `dladdr` says of an address. -/
structure DlInfo where
  dli_sname : Option Bytes
  dli_fname : Option Bytes
  /-- 0 is `NULL`. -/
  dli_fbase : UInt64

def path_basename (path : Bytes) : Bytes := (path.reverse.takeWhile (· ≠ 47)).reverse

inductive CallerMatchKind where
  | unknown
  | address
  | symbol
  | module_offset
  deriving DecidableEq, Repr

def retrace_caller_match_kind_from_string (s : Option Bytes) : CallerMatchKind :=
  if s = some (bytes "address") then .address
  else if s = some (bytes "symbol") then .symbol
  else if s = some (bytes "offset_in_module") then .module_offset
  else .unknown

section

variable (dladdr : UInt64 → Option DlInfo) (ret_addr : UInt64)

/-- `retrace_caller_match_address`. As in the other matchers, `none` is the result -1. -/
def retrace_caller_match_address (expected_address : UInt64) : Option Bool :=
  if ret_addr = 0 then none else some (ret_addr == expected_address)

def retrace_caller_match_symbol (expected_symbol : Option Bytes) : Option Bool :=
  match expected_symbol with
  | none => none
  | some expected =>
    if ret_addr = 0 ∨ expected = [] then none
    else
      (dladdr ret_addr).map fun info =>
        match info.dli_sname with
        | none => false
        | some sname => !sname.isEmpty && sname == expected

def retrace_caller_match_module_offset (expected_module_basename : Option Bytes) (expected_offset : UInt64) :
    Option Bool :=
  match expected_module_basename with
  | none => none
  | some expected =>
    if ret_addr = 0 ∨ expected = [] then none
    else
      (dladdr ret_addr).map fun info =>
        match info.dli_fname with
        | none => false
        | some fname =>
          info.dli_fbase != 0 && path_basename fname == expected && ret_addr - info.dli_fbase == expected_offset

def eval_caller_match_entry (entry : Option JsonObject) : Option Bool :=
  match entry with
  | none => none
  | some entry =>
    match retrace_caller_match_kind_from_string (json_object_get_string (some entry) (bytes "match_type")) with
    | .address =>
      retrace_caller_match_address ret_addr (doubleToU64 (json_object_get_number (some entry) (bytes "value")))
    | .symbol =>
      retrace_caller_match_symbol dladdr ret_addr (json_object_get_string (some entry) (bytes "value"))
    | .module_offset =>
      retrace_caller_match_module_offset dladdr ret_addr (json_object_get_string (some entry) (bytes "module"))
        (doubleToU64 (json_object_get_number (some entry) (bytes "offset")))
    | .unknown => none

def eval_caller_matches_loop : Bool → List JsonValue → Option Bool
  | any_evaluated, [] => if any_evaluated then some false else none
  | any_evaluated, v :: rest =>
    match eval_caller_match_entry dladdr ret_addr (json_value_get_object v) with
    | some true => some true
    | some false => eval_caller_matches_loop true rest
    | none => eval_caller_matches_loop any_evaluated rest

def eval_caller_matches (i_script : Option JsonObject) : Option Bool :=
  match json_object_get_array i_script (bytes "caller_matches") with
  | none => none
  | some entries => eval_caller_matches_loop dladdr ret_addr false entries

def script_scan (func_name : Bytes) : Option JsonObject → List JsonValue → Option JsonObject
  | ret_cand, [] => ret_cand
  | ret_cand, v :: rest =>
    let i_script := json_value_get_object v
    match json_object_get_string i_script (bytes "func_name") with
    | none => script_scan func_name ret_cand rest
    | some i_func =>
      if i_func = bytes "*" then i_script
      else if i_func = func_name then
        match eval_caller_matches dladdr ret_addr i_script with
        | some true => i_script
        | some false => script_scan func_name ret_cand rest
        | none =>
          if ret_addr = 0 then i_script
          else
            let i_ret_addr := json_object_get_number i_script (bytes "return_addr")
            if i_ret_addr = 0 then script_scan func_name (ret_cand.or i_script) rest
            else if ret_addr.toInt64 = doubleToLong i_ret_addr then i_script
            else script_scan func_name ret_cand rest
      else script_scan func_name ret_cand rest

def unconstrained (script : JsonObject) : Bool :=
  (json_object_get_array (some script) (bytes "caller_matches")).isNone &&
    json_object_get_number (some script) (bytes "return_addr") == 0

/-- `retrace_script_find` with the snapshot of the config cache; `none` when it does not return. -/
def retrace_script_find (snap : Option CacheSnap) (i_array : List JsonValue) (func_name : Bytes) :
    Option (Option JsonObject) :=
  match retrace_config_cache_lookup snap func_name with
  | none => none
  | some (some cached) =>
    if unconstrained cached then some (some cached)
    else some (script_scan dladdr ret_addr func_name none i_array)
  | some none => some (script_scan dladdr ret_addr func_name none i_array)

end

end Retrace.Core
