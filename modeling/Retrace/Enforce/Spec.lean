import Retrace.Profiler.Aggregate

/-!
# Enforcement specs

`enforce.c` of the profiler compiles a profile into a spec for the kernel's filters, and `enforce_spec.c` of
the enforcer reads it into arrays of fixed size. The sandbox profile of macOS is left out.
-/

namespace Retrace.Enforce

open CLib Parson Profiler

def g_sys_prefixes : List Bytes :=
  [bytes "/usr", bytes "/lib", bytes "/lib64", bytes "/bin", bytes "/sbin", bytes "/opt", bytes "/etc/ld.so.cache",
   bytes "/etc/ld.so.preload", bytes "/proc/self"]

def g_unsafe_syscalls : List Bytes :=
  [bytes "socket", bytes "socketpair", bytes "connect", bytes "accept", bytes "accept4", bytes "sendto",
   bytes "recvfrom", bytes "bind", bytes "listen", bytes "shutdown", bytes "ptrace", bytes "mount",
     bytes "umount2",
   bytes "reboot", bytes "swapon", bytes "swapoff", bytes "setuid", bytes "setgid", bytes "unshare", bytes "setns",
   bytes "bpf", bytes "keyctl", bytes "request_key", bytes "add_key", bytes "pivot_root", bytes "kexec_load",
   bytes "perf_event_open", bytes "fanotify_init", bytes "userfaultfd", bytes "init_module", bytes "finit_module",
   bytes "delete_module"]

def profile_uses (p : Profile) (fn : Bytes) : Bool := p.functions.any fun e => e.name = fn

def landlock_rule (path : Bytes) (access : List Bytes) : JsonValue :=
  .object (json_object_set_value (json_object_set_string [] (bytes "path") path) (bytes "access")
    (.array (access.foldl json_array_append_string [])))

def landlock_rules (allow_src : Profile) (exec_path : Option Bytes) : List JsonValue :=
  (allow_src.accesses.map fun a =>
    landlock_rule a.path ([bytes "rd"] ++ (if a.class_write then [bytes "wr"] else []) ++ [bytes "x"])) ++
  (g_sys_prefixes.map fun p => landlock_rule p [bytes "rd", bytes "x"]) ++
  (exec_path.toList.map fun p => landlock_rule p [bytes "rd", bytes "x"])

def seccomp_deny (usage_src : Profile) : List JsonValue :=
  (g_unsafe_syscalls.filter fun fn => !profile_uses usage_src (snprintf 32 fn)).foldl json_array_append_string []

def container_name (exec_path : Option Bytes) : Bytes :=
  let h := (cstr (exec_path.getD (bytes "retrace"))).foldl (fun h c => (h ^^^ c.toUInt64) * 1099511628211)
    (1469598103934665603 : UInt64)
  snprintf 128 (bytes "retrace." ++ fmtHex16 h)

def container_paths (allow_src : Profile) (write : Bool) : List Bytes :=
  (allow_src.accesses.filter fun a =>
    cstr a.path ≠ [] && (if write then a.class_write else !a.class_write && a.class_read)).map ProfAccess.path

def appcontainer (allow_src : Profile) (exec_path : Option Bytes) : JsonObject :=
  let ac := json_object_set_string [] (bytes "name") (container_name exec_path)
  let ac := json_object_set_value ac (bytes "read_paths")
    (.array ((container_paths allow_src false).foldl json_array_append_string []))
  json_object_set_value ac (bytes "write_paths")
    (.array ((container_paths allow_src true).foldl json_array_append_string []))

def build_spec (allow_src usage_src : Profile) (exec_path : Option Bytes)
    (want_landlock want_seccomp want_ac : Bool) :
    JsonValue :=
  let root : JsonObject := json_object_set_value [] (bytes "no_new_privs") (.boolean true)
  let root :=
    if want_landlock then
      json_object_set_value root (bytes "landlock")
        (.object (json_object_set_value [] (bytes "rules") (.array (landlock_rules allow_src exec_path))))
    else root
  let root :=
    if want_seccomp then
      json_object_set_value root (bytes "seccomp")
        (.object (json_object_set_value [] (bytes "deny") (.array (seccomp_deny usage_src))))
    else root
  .object
    (if want_ac then json_object_set_value root (bytes "appcontainer") (.object (appcontainer allow_src exec_path))
     else root)

def spec_text (spec : JsonValue) : Bytes := json_serialize_to_string_pretty spec ++ [newline]

def ENFORCE_RULES_MAX : Nat := 512

def ENFORCE_SYSCALLS_MAX : Nat := 128

def ENFORCE_AC_PATHS_MAX : Nat := 256

/-- The bits of `enum enforce_access`, as a set. -/
structure Access where
  ENF_READ : Bool := false
  ENF_WRITE : Bool := false
  ENF_EXECUTE : Bool := false
  deriving DecidableEq, Repr

structure EnforceRule where
  path : Bytes
  access : Access
  deriving DecidableEq, Repr

structure EnforceSpec where
  rules : List EnforceRule := []
  deny : List Bytes := []
  no_new_privs : Bool := false
  ac_name : Bytes := []
  ac_read : List Bytes := []
  ac_write : List Bytes := []
  deriving DecidableEq, Repr

def Access.add (m : Access) (s : Bytes) : Access :=
  if s = bytes "rd" then { m with ENF_READ := true }
  else if s = bytes "wr" then { m with ENF_WRITE := true }
  else if s = bytes "x" then { m with ENF_EXECUTE := true }
  else m

def item_string : JsonValue → Option Bytes
  | .string s => some s
  | _ => none

def access_mask (o : JsonObject) : Access :=
  match json_object_get_array (some o) (bytes "access") with
  | none => {}
  | some a => (a.filterMap item_string).foldl Access.add {}

/-- One round of the loops that copy items into an array of `cap` elements: what does not fit is skipped. -/
def fill_step {α : Type} (cap : Nat) (item : JsonValue → Option α) (acc : List α) (x : JsonValue) : List α :=
  match item x with
  | none => acc
  | some a => if cap ≤ acc.length then acc else acc ++ [a]

def fill {α : Type} (cap : Nat) (item : JsonValue → Option α) (xs : List JsonValue) : List α :=
  xs.foldl (fill_step cap item) []

def rule_item (r : JsonValue) : Option EnforceRule :=
  match json_value_get_object r with
  | none => none
  | some r =>
    match json_object_get_string (some r) (bytes "path") with
    | none => none
    | some p =>
      let m := access_mask r
      if m = {} then none else some ⟨snprintf 512 p, m⟩

def parse_rules (root : JsonObject) : List EnforceRule :=
  fill ENFORCE_RULES_MAX rule_item
    ((json_object_get_array (json_object_get_object (some root) (bytes "landlock")) (bytes "rules")).getD [])

def parse_deny (root : JsonObject) : List Bytes :=
  fill ENFORCE_SYSCALLS_MAX (fun v => (item_string v).map (snprintf 32))
    ((json_object_get_array (json_object_get_object (some root) (bytes "seccomp")) (bytes "deny")).getD [])

def parse_paths (root : JsonObject) (name : Bytes) : List Bytes :=
  fill ENFORCE_AC_PATHS_MAX (fun v => (item_string v).map (snprintf 512))
    ((json_object_get_array (json_object_get_object (some root) (bytes "appcontainer")) name).getD [])

/-- `json_object_get_boolean`; something else than a boolean is -1. -/
def json_object_get_boolean (o : Option JsonObject) (name : Bytes) : Int :=
  match json_object_get_value o name with
  | some (.boolean b) => if b then 1 else 0
  | _ => -1

def enforce_spec_parse (json : Bytes) : Option EnforceSpec :=
  match json_parse_string json with
  | none => none
  | some v =>
    match json_value_get_object v with
    | none => none
    | some root =>
      some
        { rules := parse_rules root
          deny := parse_deny root
          no_new_privs := json_object_get_boolean (some root) (bytes "no_new_privs") ≠ 0
          ac_name := snprintf 128 ((json_object_get_string
            (json_object_get_object (some root) (bytes "appcontainer")) (bytes "name")).getD [])
          ac_read := parse_paths root (bytes "read_paths")
          ac_write := parse_paths root (bytes "write_paths") }

structure RuleText where
  path : Option Bytes
  access : List Bytes
  deriving DecidableEq, Repr

def EnforceRule.text (r : EnforceRule) : RuleText :=
  ⟨some r.path, (if r.access.ENF_READ then [bytes "rd"] else []) ++
    (if r.access.ENF_WRITE then [bytes "wr"] else []) ++
    (if r.access.ENF_EXECUTE then [bytes "x"] else [])⟩

def spec_rules (spec : JsonValue) : List RuleText :=
  ((json_object_get_array (json_object_get_object (json_value_get_object spec) (bytes "landlock"))
    (bytes "rules")).getD []).map fun r =>
      ⟨json_object_get_string (json_value_get_object r) (bytes "path"),
       ((json_object_get_array (json_value_get_object r) (bytes "access")).getD []).filterMap item_string⟩

def spec_strings (spec : JsonValue) (name array : Bytes) : List Bytes :=
  ((json_object_get_array (json_object_get_object (json_value_get_object spec) name) array).getD
    []).filterMap item_string

def Carried (spec : JsonValue) : Prop :=
  match enforce_spec_parse (spec_text spec) with
  | none => True
  | some read =>
    read.rules.map EnforceRule.text = spec_rules spec ∧
    read.deny = spec_strings spec (bytes "seccomp") (bytes "deny") ∧
    read.ac_read = spec_strings spec (bytes "appcontainer") (bytes "read_paths") ∧
    read.ac_write = spec_strings spec (bytes "appcontainer") (bytes "write_paths")

def declared_paths (allow_src : Profile) (exec_path : Option Bytes) : List Bytes :=
  allow_src.accesses.map (fun a => cstr a.path) ++ exec_path.toList.map cstr

def granted_paths (allow_src : Profile) (write : Bool) : List Bytes :=
  ((container_paths allow_src write).map cstr).filter is_valid_utf8

structure Fits (allow_src : Profile) (exec_path : Option Bytes) (want_landlock want_ac : Bool) : Prop where
  rules : want_landlock → (declared_paths allow_src exec_path).length + g_sys_prefixes.length ≤ ENFORCE_RULES_MAX ∧
    ∀ p ∈ declared_paths allow_src exec_path, is_valid_utf8 p = true ∧ p.length < 512
  paths : want_ac → ∀ write, (granted_paths allow_src write).length ≤ ENFORCE_AC_PATHS_MAX ∧
    ∀ p ∈ granted_paths allow_src write, p.length < 512

end Retrace.Enforce
