import Retrace.Profiler.Timings
import Retrace.Profiler.Inside

/-!
# The profile document and its validator

`prof_to_json` and the part of `main` that builds the document, and `validate.c`, a second description of the
same format.
-/

namespace Retrace.Profiler

open CLib Parson

/-! ## Writing -/

def sizeToDouble (n : Nat) : ℚ := roundDouble ((n % 2 ^ 64 : Nat) : ℚ)

/-- `json_object_set_number` of a sum: an infinity is refused. -/
def set_total (o : JsonObject) (name : Bytes) : Total → JsonObject
  | .finite d => json_object_set_number o name d
  | .infinite _ => o

def name_to_json (e : ProfName) : JsonValue :=
  .object (json_object_set_number (json_object_set_string [] (bytes "name") e.name) (bytes "count")
    (sizeToDouble e.count))

def names_to_json (n : List ProfName) (root : JsonObject) (key : Bytes) : JsonObject :=
  json_object_set_value root key (.array (n.map name_to_json))

def access_class (a : ProfAccess) : Bytes :=
  if a.class_write then bytes "write"
  else if a.class_read then bytes "read"
  else if a.class_probe then bytes "probe"
  else bytes "none"

def access_to_json (a : ProfAccess) : JsonValue :=
  let o := json_object_set_string [] (bytes "path") a.path
  let o := json_object_set_string o (bytes "class") (access_class a)
  .object (json_object_set_number o (bytes "hits") (sizeToDouble a.hits))

def timing_to_json (t : ProfTiming) : JsonValue :=
  let o := json_object_set_string [] (bytes "func") t.func
  let o := json_object_set_number o (bytes "calls") (sizeToDouble t.calls)
  let o := set_total o (bytes "total_us") t.total_us
  let o := json_object_set_number o (bytes "max_us") t.max_us
  .object (json_object_set_number o (bytes "p99_us") (prof_timing_p99 t))

def prof_to_json (p : Profile) (timings : List ProfTiming) : JsonObject :=
  let root := json_object_set_number [] (bytes "entries") (sizeToDouble p.entries)
  let root := names_to_json p.functions root (bytes "functions")
  let root := names_to_json p.env root (bytes "env")
  let root := names_to_json p.net root (bytes "net")
  let root := json_object_set_value root (bytes "accesses") (.array (p.accesses.map access_to_json))
  if timings = [] then root
  else json_object_set_value root (bytes "timings") (.array ((top_timings 20 timings).map timing_to_json))

structure Delta where
  agreed : Nat
  libc_only : Nat
  kernel_only : Nat
  risk_arr : List JsonValue

def delta_step (libc : Profile) (d : Delta) (ka : ProfAccess) : Delta :=
  if (prof_access_get libc ka.path).isSome then
    { d with agreed := d.agreed + 1, libc_only := (d.libc_only + (2 ^ 64 - 1)) % 2 ^ 64 }
  else
    { d with
      kernel_only := d.kernel_only + 1
      risk_arr := d.risk_arr ++ [.object (json_object_set_number
        (json_object_set_string [] (bytes "path") ka.path) (bytes "hits") (sizeToDouble ka.hits))] }

def delta_compute (libc kernel : Profile) : Delta :=
  kernel.accesses.foldl (delta_step libc) ⟨0, libc.accesses.length, 0, []⟩

def risk_to_json (d : Delta) : JsonObject :=
  let ro := json_object_set_number [] (bytes "agreed") (sizeToDouble d.agreed)
  let ro := json_object_set_number ro (bytes "libc_only") (sizeToDouble d.libc_only)
  let ro := json_object_set_number ro (bytes "kernel_only") (sizeToDouble d.kernel_only)
  let ro := json_object_set_string ro (bytes "verdict")
    (if 0 < d.kernel_only then bytes "SUBLIBC_ACCESS_FOUND" else bytes "clean")
  json_object_set_value ro (bytes "kernel_only_accesses") (.array d.risk_arr)

structure ProfCapability where
  syscall_gadgets : Nat
  ntdll_imports : Nat
  ntdll_names : Fin 16 → Bytes

def capability_to_json (root : JsonObject) (c : ProfCapability) : JsonObject :=
  let cap := json_object_set_number [] (bytes "raw_syscall_gadgets") (sizeToDouble c.syscall_gadgets)
  let cap := json_object_set_number cap (bytes "ntdll_imports") (sizeToDouble c.ntdll_imports)
  let names := ((List.finRange 16).take c.ntdll_imports).map c.ntdll_names
  let cap := json_object_set_value cap (bytes "ntdll_names") (.array (names.foldl json_array_append_string []))
  json_object_set_value root (bytes "static_capability") (.object cap)

def coverage_to_json (have_kernel : Bool) : JsonObject :=
  json_object_set_string (json_object_set_string [] (bytes "libc_layer") (bytes "captured")) (bytes "kernel_layer")
    (if have_kernel then bytes "captured" else bytes "ABSENT")

def profile_document (libc : Profile) (timings : List ProfTiming) (kernel : Option Profile)
    (cap : Option ProfCapability) : JsonObject :=
  let root := json_object_set_value [] (bytes "profile") (.object (prof_to_json libc timings))
  let root := json_object_set_value root (bytes "coverage") (.object (coverage_to_json kernel.isSome))
  let root :=
    match kernel with
    | some kernel => json_object_set_value root (bytes "risk") (.object (risk_to_json (delta_compute libc kernel)))
    | none => root
  match cap with
  | some cap => capability_to_json root cap
  | none => root

def trace_entries (text : Bytes) : List (Option JsonObject) := (corr_stream_scan text).1

def trace_timings (text : Bytes) : List ProfTiming := (trace_entries text).foldl timing_add_entry []

/-- What `main` writes for the trace `libc` and, when they are given, a kernel trace and a scan of the
program. -/
def profile_text (libc : Bytes) (kernel : Option Bytes) (cap : Option ProfCapability) : Bytes :=
  json_serialize_to_string_pretty (.object (profile_document (scan_profile libc).prof (trace_timings libc)
    (kernel.map fun text => (scan_profile text).prof) cap)) ++ [newline]

/-! ## Validating -/

def nonempty_string (o : JsonObject) (name : Bytes) : Bool :=
  (json_object_get_string (some o) name).any (· ≠ [])

/-- A number that is there and not less than `least`; another value counts as 0. -/
def number_from (least : ℚ) (o : JsonObject) (name : Bytes) : Bool :=
  (json_object_get_value (some o) name).isSome && least ≤ json_object_get_number (some o) name

def string_in (set : List Bytes) (o : JsonObject) (name : Bytes) : Bool :=
  (json_object_get_string (some o) name).any (· ∈ set)

def require (ok : Bool) (text : Bytes) : List Bytes := if ok then [] else [text]

def item_path (key : Bytes) (i : Nat) : Bytes := bytes "profile." ++ key ++ bytes "[" ++ fmtNat i ++ bytes "]"

def check_items (key : Bytes) (check : Bytes → JsonObject → List Bytes) (arr : List JsonValue) : List Bytes :=
  arr.zipIdx.flatMap fun (item, i) =>
    match json_value_get_object item with
    | none => [item_path key i ++ bytes ": object required"]
    | some o => check (item_path key i) o

def check_array (key : Bytes) (check : Bytes → JsonObject → List Bytes) (prof : JsonObject) : List Bytes :=
  match json_object_get_array (some prof) key with
  | none => [bytes "profile." ++ key ++ bytes ": array required"]
  | some arr => check_items key check arr

def check_name_count (at_ : Bytes) (o : JsonObject) : List Bytes :=
  require (nonempty_string o (bytes "name")) (at_ ++ bytes ".name: non-empty string required") ++
    require (number_from 1 o (bytes "count")) (at_ ++ bytes ".count: number >= 1 required")

def check_name_count_array (prof : JsonObject) (key : Bytes) : List Bytes := check_array key check_name_count prof

def classes : List Bytes := [bytes "read", bytes "write", bytes "probe", bytes "none"]

def layers : List Bytes := [bytes "captured", bytes "ABSENT"]

def verdicts : List Bytes := [bytes "clean", bytes "SUBLIBC_ACCESS_FOUND"]

def check_access (at_ : Bytes) (o : JsonObject) : List Bytes :=
  require (nonempty_string o (bytes "path")) (at_ ++ bytes ".path: non-empty string required") ++
    require (string_in classes o (bytes "class")) (at_ ++ bytes ".class: read|write|probe|none required") ++
    require (number_from 1 o (bytes "hits")) (at_ ++ bytes ".hits: number >= 1 required")

def check_profile (root : JsonObject) : List Bytes :=
  match json_object_get_object (some root) (bytes "profile") with
  | none => [bytes "profile: object required"]
  | some prof =>
    require (number_from 0 prof (bytes "entries")) (bytes "profile.entries: number >= 0 required") ++
      check_name_count_array prof (bytes "functions") ++ check_name_count_array prof (bytes "env") ++
      check_name_count_array prof (bytes "net") ++ check_array (bytes "accesses") check_access prof

def check_coverage (root : JsonObject) : List Bytes × Bool :=
  match json_object_get_object (some root) (bytes "coverage") with
  | none => ([bytes "coverage: object required"], false)
  | some cov =>
    (require (string_in layers cov (bytes "libc_layer")) (bytes "coverage.libc_layer: captured|ABSENT required") ++
      require (string_in layers cov (bytes "kernel_layer"))
        (bytes "coverage.kernel_layer: captured|ABSENT required"),
     json_object_get_string (some cov) (bytes "kernel_layer") = some (bytes "captured"))

def check_risk (root : JsonObject) (kernel_captured : Bool) : List Bytes :=
  if (json_object_get_value (some root) (bytes "risk")).isSome then
    require kernel_captured (bytes "risk: present but coverage.kernel_layer is ABSENT") ++
      match json_object_get_object (some root) (bytes "risk") with
      | none => [bytes "risk: object required"]
      | some risk =>
        require (string_in verdicts risk (bytes "verdict"))
            (bytes "risk.verdict: clean|SUBLIBC_ACCESS_FOUND required") ++
          [bytes "agreed", bytes "libc_only", bytes "kernel_only"].flatMap fun name =>
            require (number_from 0 risk name) (bytes "risk." ++ name ++ bytes ": number >= 0 required")
  else require (!kernel_captured) (bytes "risk: required when coverage.kernel_layer is captured")

def check_capability (root : JsonObject) : List Bytes :=
  if (json_object_get_value (some root) (bytes "static_capability")).isSome then
    match json_object_get_object (some root) (bytes "static_capability") with
    | none => [bytes "static_capability: object required"]
    | some cap =>
      require (number_from 0 cap (bytes "raw_syscall_gadgets"))
          (bytes "static_capability.raw_syscall_gadgets: number >= 0 required") ++
        require (number_from 0 cap (bytes "ntdll_imports"))
          (bytes "static_capability.ntdll_imports: number >= 0 required")
  else []

def document_violations (root : JsonObject) : List Bytes :=
  let (coverage, kernel_captured) := check_coverage root
  check_profile root ++ coverage ++ check_risk root kernel_captured ++ check_capability root

def violate (errsz : Nat) (err text : Bytes) : Bytes :=
  if errsz ≤ err.length + 2 then err
  else
    let err := if err ≠ [] then err ++ [newline] else err
    err ++ snprintf (errsz - err.length) text

/-- `prof_validate_file` on the content of a file: the return value and the text in `err`. -/
def prof_validate_file (text : Bytes) (errsz : Nat) : Int × Bytes :=
  match json_parse_string (cstr text) with
  | none => (-1, violate errsz [] (bytes "not parseable JSON"))
  | some v =>
    match json_value_get_object v with
    | none => (-1, violate errsz [] (bytes "root: object required"))
    | some root => ((document_violations root).length, (document_violations root).foldl (violate errsz) [])

/-! ## Traces -/

mutual

def utf8_strings : JsonValue → Bool
  | .string s => is_valid_utf8 s
  | .array items => utf8_items items
  | .object members => utf8_members members
  | _ => true

def utf8_items : List JsonValue → Bool
  | [] => true
  | v :: vs => utf8_strings v && utf8_items vs

def utf8_members : List (Bytes × JsonValue) → Bool
  | [] => true
  | (_, v) :: ms => utf8_strings v && utf8_members ms

end

/-- The content of a file that is read as a trace: it is no profile document, its size is a `long`, and the
strings in its entries are well-formed UTF-8. -/
structure TraceFile (text : Bytes) : Prop where
  trace : json_object_get_object ((json_parse_string_with_comments (cstr text)).bind json_value_get_object)
    (bytes "profile") = none
  size : text.length < 2 ^ 63
  utf8 : ∀ o, some o ∈ trace_entries text → utf8_strings (.object o) = true

/-- The address that `collect_net` puts together from the host and the port of a call, before it is cut to the
size of the buffer. -/
def host_and_port (entry : Option JsonObject) : Option Bytes :=
  match json_object_get_object entry (bytes "message") with
  | none => none
  | some msg =>
    let host := (json_object_get_string (some msg) (bytes "host")).getD []
    let port := (json_object_get_string (some msg) (bytes "port")).getD []
    let addr := (json_object_get_string (some msg) (bytes "addr")).getD []
    if is_call msg ∧ addr = [] ∧ host ≠ [] then
      some (if port ≠ [] then host ++ bytes ":" ++ port else host)
    else none

def ProfTiming.NotSubnormal (t : ProfTiming) : Prop :=
  (∀ d, t.total_us = .finite d → notSubnormal d = true) ∧ notSubnormal t.max_us = true ∧
    notSubnormal (prof_timing_p99 t) = true

end Retrace.Profiler
