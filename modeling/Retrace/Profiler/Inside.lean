import Retrace.Profiler.Aggregate
import Retrace.CLib.Stdio

/-!
# Grading against a declared set

`profile.c`: how the tool reads its inputs, and the comparison of what was observed with the set that a
document declares. `docker2inside`, `snap2inside` and `flatpak2inside` write such documents.
-/

namespace Retrace.Profiler

open CLib Parson

structure ProfFeed where
  prof : Profile
  skipped : Nat
  deriving DecidableEq, Repr

def scan_profile (text : Bytes) : ProfFeed :=
  let scanned := corr_stream_scan text
  ⟨prof_finish (scanned.1.foldl prof_add_entry {}), scanned.2⟩

/-- `load_profile`; `none` is the return value -1 for a file that cannot be read. -/
def load_profile (fs : FS) (path : Path) : Option ProfFeed := (fs path).map scan_profile

/-- `load_any`: a profile document or a trace. -/
def load_any (fs : FS) (path : Path) : Option ProfFeed :=
  (fs path).map fun text =>
    let root := (json_parse_string_with_comments (cstr text)).bind json_value_get_object
    match json_object_get_object root (bytes "profile") with
    | some profile => ⟨prof_from_json profile, 0⟩
    | none => scan_profile text

def violations (libc inside : Profile) : List ProfAccess :=
  libc.accesses.filter fun a => (prof_access_get inside a.path).isNone

/-- `main` with `--libc` and `--inside`, as far as the grading: the accesses that are reported; `none`
when a file cannot be read. -/
def grade_inside (fs : FS) (libc_path inside_path : Path) : Option (List ProfAccess) := do
  let libc ← load_any fs libc_path
  let inside ← load_profile fs inside_path
  some (violations libc.prof inside.prof)

def ObjectDocument (text : Bytes) (root : JsonObject) : Prop :=
  ∃ before body behind, text = before ++ body ++ behind ∧ before.all isspace = true ∧
    behind.all isspace = true ∧ 0 ∉ body ∧ body.head? = some lbrace ∧
    parse_value (MAX_NESTING + 1) body = some (.object root, [])

/-- A document that declares a set: an object with the member `profile`, and no message. -/
def DeclaredSet (text : Bytes) (profile : JsonObject) : Prop :=
  ∃ root, ObjectDocument text root ∧
    json_object_get_object (some root) (bytes "profile") = some profile ∧
    json_object_get_object (some root) (bytes "message") = none

def declared_paths (profile : JsonObject) : List Bytes :=
  ((json_object_get_array (some profile) (bytes "accesses")).getD []).filterMap fun item =>
    json_object_get_string (json_value_get_object item) (bytes "path")

def Granted (declared : List Bytes) (path : Bytes) : Prop :=
  ∃ d ∈ declared, path = d ∨ (d.getLast? = some slash ∧ d <+: path ∧ path ≠ d)

instance (declared : List Bytes) (path : Bytes) : Decidable (Granted declared path) :=
  inferInstanceAs (Decidable (∃ d ∈ declared, _))

end Retrace.Profiler
