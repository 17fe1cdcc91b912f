import Retrace.Profiler.Stream
import Retrace.Json.Serialize

/-!
# Profiles

`aggregate.c`: a trace is reduced to the functions it calls, the paths it touches, the variables of the
environment and the addresses it uses. The arrays are kept sorted and searched by halving. The call
durations, which no other part of the profile depends on, are left out. In front of it `match.c` of the
correlator: what counts as a path, its normal form, and the class of an access by the name of the
function.
-/

namespace Retrace.Profiler

open CLib Parson

abbrev slash : UInt8 := 47

def CORR_PATH_MAX : Nat := 1024

def is_letter (c : UInt8) : Bool := (65 ≤ c && c ≤ 90) || (97 ≤ c && c ≤ 122)

def corr_is_path_like (s : Bytes) : Bool :=
  match s with
  | [] => false
  | c :: t =>
    c == slash || c == backslash || (is_letter c && t.head? == some colon) ||
      s.contains slash || s.contains backslash

def strip_nt (s : Bytes) : Bytes × Bytes :=
  if (bytes "\\??\\").isPrefixOf s then ([], s.drop 4)
  else if (bytes "//?/").isPrefixOf s ∧ s.length ≠ 4 ∧ s[4]? ≠ some slash then ([], s.drop 4)
  else if (bytes "\\\\?\\").isPrefixOf s then ([], s.drop 4)
  else if (bytes "\\Device\\HarddiskVolume").isPrefixOf s then
    let v := s.drop 22
    let vol := digitsVal 10 (v.takeWhile isdigit)
    (if 1 ≤ vol ∧ vol ≤ 26 then [(64 + vol).toUInt8, colon] else [], v.dropWhile isdigit)
  else ([], s)

/-- `corr_normalize` into a buffer of `outsz` bytes; `none` is the return value 0. -/
def corr_normalize (s : Bytes) (outsz : Nat) : Option Bytes :=
  let (drive, p) := strip_nt s
  if outsz < drive.length + p.length + 1 then none
  else
    let out := drive ++ p.map fun c => if c = backslash then slash else c
    let out := if 1 < out.length ∧ out.getLast? = some slash then out.dropLast else out
    if corr_is_path_like out then some out else none

inductive CorrClass where
  | none
  | probe
  | read
  | write
  deriving DecidableEq, Repr

def g_probe_funcs : List Bytes :=
  [bytes "queryopen", bytes "getfileattributesw", bytes "getfileattributesa",
   bytes "ntqueryattributesfile", bytes "stat", bytes "lstat", bytes "fstatat", bytes "access",
   bytes "faccessat", bytes "stat64"]

def g_write_funcs : List Bytes :=
  [bytes "writefile", bytes "ntwritefile", bytes "deletefilew", bytes "deletefilea", bytes "movefilew",
   bytes "movefileexw", bytes "copyfilew", bytes "rename", bytes "unlink", bytes "rmdir",
   bytes "truncate", bytes "ftruncate", bytes "mkdir", bytes "mkdirat", bytes "creat"]

def fold (bufsz : Nat) (s : Bytes) : Bytes := (s.take (bufsz - 1)).map tolower

def corr_classify (func detail : Option Bytes) : CorrClass :=
  match func with
  | .none | some [] => .none
  | some func =>
    let folded := fold 128 func
    if folded ∈ g_probe_funcs then .probe
    else if folded ∈ g_write_funcs then .write
    else
      match detail with
      | .none => .read
      | some detail =>
        let d := fold 256 detail
        if (folded = bytes "createfile" ∨ folded = bytes "ntcreatefile") ∧
            (strstr d (bytes "write")).isSome then .write
        else if folded = bytes "fopen" ∧ (119 ∈ d ∨ 97 ∈ d) then .write
        else .read

def strcmp : Bytes → Bytes → Ordering
  | [], [] => .eq
  | [], _ :: _ => .lt
  | _ :: _, [] => .gt
  | a :: s, b :: t => if a < b then .lt else if b < a then .gt else strcmp s t

inductive Probe where
  | found (i : Nat)
  | missing (i : Nat)
  deriving DecidableEq, Repr

/-- The loop of the searches between `lo` and `hi`; the interval shrinks in every round. -/
def bsearch_loop {α : Type} (key : α → Bytes) (xs : List α) (name : Bytes) : Nat → Nat → Nat → Probe
  | 0, lo, _ => .missing lo
  | fuel + 1, lo, hi =>
    if lo < hi then
      let mid := lo + (hi - lo) / 2
      match xs[mid]? with
      | none => .missing lo
      | some x =>
        match strcmp (key x) name with
        | .eq => .found mid
        | .lt => bsearch_loop key xs name fuel (mid + 1) hi
        | .gt => bsearch_loop key xs name fuel lo mid
    else .missing lo

def bsearch {α : Type} (key : α → Bytes) (xs : List α) (name : Bytes) : Probe :=
  bsearch_loop key xs name xs.length 0 xs.length

/-- An entry of `struct ProfNames`. -/
structure ProfName where
  name : Bytes
  count : Nat
  deriving DecidableEq, Repr

def prof_names_add (n : List ProfName) (name : Bytes) : List ProfName :=
  if name = [] then n
  else
    match bsearch ProfName.name n name with
    | .found i => n.modify i fun e => { e with count := e.count + 1 }
    | .missing i => n.insertIdx i ⟨name, 1⟩

/-- The inner loop of `names_finish`: `e` moves in front of the greater names at the end of what is
sorted, which is given in reverse. -/
def insert_back (e : ProfName) : List ProfName → List ProfName
  | [] => [e]
  | x :: xs => if strcmp x.name e.name = .gt then x :: insert_back e xs else e :: x :: xs

def names_finish (n : List ProfName) : List ProfName :=
  (n.foldl (fun done e => insert_back e done) []).reverse

structure ProfAccess where
  path : Bytes
  class_write : Bool := false
  class_read : Bool := false
  class_probe : Bool := false
  hits : Nat := 0
  deriving DecidableEq, Repr

structure Profile where
  functions : List ProfName := []
  env : List ProfName := []
  net : List ProfName := []
  accesses : List ProfAccess := []
  entries : Nat := 0
  no_pid : Nat := 0
  deriving DecidableEq, Repr

def prof_access_get (p : Profile) (path : Bytes) : Option ProfAccess :=
  match bsearch ProfAccess.path p.accesses path with
  | .found i => p.accesses[i]?
  | .missing _ => none

def ProfAccess.hit (a : ProfAccess) (cls : CorrClass) : ProfAccess :=
  let a := { a with hits := a.hits + 1 }
  match cls with
  | .write => { a with class_write := true }
  | .read => { a with class_read := true }
  | .probe => { a with class_probe := true }
  | .none => a

def access_add (p : Profile) (path : Bytes) (cls : CorrClass) : Profile :=
  { p with
    accesses :=
      match bsearch ProfAccess.path p.accesses path with
      | .found i => p.accesses.modify i (·.hit cls)
      | .missing i => p.accesses.insertIdx i (({ path } : ProfAccess).hit cls) }

def names_add_string (n : List ProfName) (name : Option Bytes) : List ProfName :=
  prof_names_add n (name.getD [])

def collect_env (msg : Option JsonObject) (p : Profile) : Profile :=
  match json_object_get_array msg (bytes "*name") with
  | some deref => { p with env := names_add_string p.env (json_array_get_string deref 0) }
  | none => { p with env := names_add_string p.env (json_object_get_string msg (bytes "name")) }

def collect_net (msg : Option JsonObject) (p : Profile) : Profile :=
  let host := (json_object_get_string msg (bytes "host")).getD []
  let port := (json_object_get_string msg (bytes "port")).getD []
  let addr := (json_object_get_string msg (bytes "addr")).getD []
  if addr ≠ [] then { p with net := prof_names_add p.net addr }
  else if host ≠ [] then
    { p with
      net := prof_names_add p.net
        (snprintf 256 (if port ≠ [] then host ++ bytes ":" ++ port else host)) }
  else p

def collect_string (func detail : Option Bytes) (s : Bytes) (p : Profile) : Profile :=
  if corr_is_path_like s then
    match corr_normalize s CORR_PATH_MAX with
    | some norm => access_add p norm (corr_classify func detail)
    | none => p
  else p

mutual

/-- `collect_msg`: every path-like string in a value is an access. -/
def collect_msg (func detail : Option Bytes) : JsonValue → Profile → Profile
  | .string s, p => collect_string func detail s p
  | .object members, p => collect_members func detail members p
  | .array items, p => collect_items func detail items p
  | .null, p => p
  | .boolean _, p => p
  | .number _, p => p

def collect_members (func detail : Option Bytes) : List (Bytes × JsonValue) → Profile → Profile
  | [], p => p
  | (_, v) :: ms, p => collect_members func detail ms (collect_msg func detail v p)

def collect_items (func detail : Option Bytes) : List JsonValue → Profile → Profile
  | [], p => p
  | v :: vs, p => collect_items func detail vs (collect_msg func detail v p)

end

def add_call (msg : JsonObject) (p : Profile) : Profile :=
  let func := json_object_get_string (some msg) (bytes "func")
  let detail := json_object_get_string (some msg) (bytes "detail")
  let p := { p with functions := names_add_string p.functions func }
  collect_msg func detail (.object msg) (collect_net (some msg) (collect_env (some msg) p))

def is_call (msg : JsonObject) : Bool :=
  (json_object_get_string (some msg) (bytes "text")).isNone &&
    (json_object_get_value (some msg) (bytes "call_duration_us")).isNone

def prof_add_entry (p : Profile) (entry : Option JsonObject) : Profile :=
  match entry with
  | none => p
  | some entry =>
    let p := { p with
      entries := p.entries + 1
      no_pid := if json_object_get_number (some entry) (bytes "pid") = 0 then p.no_pid + 1 else p.no_pid }
    match json_object_get_object (some entry) (bytes "message") with
    | none => p
    | some msg => if is_call msg then add_call msg p else p

def prof_finish (p : Profile) : Profile :=
  { p with
    functions := names_finish p.functions
    env := names_finish p.env
    net := names_finish p.net }

def toSize (d : ℚ) : Nat := (doubleToU64 d).toNat

def name_from_json (n : List ProfName) (item : JsonValue) : List ProfName :=
  let o := json_value_get_object item
  let count := json_object_get_number o (bytes "count")
  match json_object_get_string o (bytes "name") with
  | none | some [] => n
  | some name =>
    let n := prof_names_add n name
    match bsearch ProfName.name n name with
    | .found i => if 1 < count then n.modify i ({ · with count := toSize count }) else n
    | .missing _ => n

def names_from_json (n : List ProfName) (root : Option JsonObject) (key : Bytes) : List ProfName :=
  ((json_object_get_array root key).getD []).foldl name_from_json n

def class_from_str (s : Option Bytes) : CorrClass :=
  if s = some (bytes "write") then .write
  else if s = some (bytes "read") then .read
  else if s = some (bytes "probe") then .probe
  else .none

def access_from_json (p : Profile) (item : JsonValue) : Profile :=
  let o := json_value_get_object item
  let hits := json_object_get_number o (bytes "hits")
  match json_object_get_string o (bytes "path") with
  | none | some [] => p
  | some path =>
    let p := access_add p path (class_from_str (json_object_get_string o (bytes "class")))
    match bsearch ProfAccess.path p.accesses path with
    | .found i =>
      if 0 < hits then { p with accesses := p.accesses.modify i ({ · with hits := toSize hits }) } else p
    | .missing _ => p

def prof_from_json (root : JsonObject) : Profile :=
  let p : Profile :=
    { entries := toSize (json_object_get_number (some root) (bytes "entries"))
      functions := names_from_json [] (some root) (bytes "functions")
      env := names_from_json [] (some root) (bytes "env")
      net := names_from_json [] (some root) (bytes "net") }
  prof_finish (((json_object_get_array (some root) (bytes "accesses")).getD []).foldl access_from_json p)

end Retrace.Profiler
