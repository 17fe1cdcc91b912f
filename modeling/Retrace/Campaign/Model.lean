import Retrace.Json.Serialize
import Retrace.CLib.Stdio

/-!
# Campaigns

`model.c`: a manifest is read into samples and policies, and these are expanded into a matrix of runs. A
manifest is refused whole, with a text that names the first thing that is broken. The numbers of a
manifest fit into an `int`.
-/

namespace Retrace.Campaign

open CLib Parson

def CAMPAIGN_MAX_SAMPLES : Nat := 64

def CAMPAIGN_MAX_POLICIES : Nat := 64

def CAMPAIGN_MAX_ARGV : Nat := 16

def CAMPAIGN_NAME_MAX : Nat := 64

def PATH_SIZE : Nat := 512

def MAX_CELLS : Nat := CAMPAIGN_MAX_SAMPLES * CAMPAIGN_MAX_POLICIES * 32

/-- `struct campaign_sample`. -/
structure Sample where
  name : Bytes
  argv : List Bytes
  deriving DecidableEq, Repr

/-- `struct campaign_policy`. -/
structure Policy where
  name : Bytes
  path : Bytes
  deriving DecidableEq, Repr

/-- `struct campaign_cell`. -/
structure Cell where
  sample : Nat
  policy : Nat
  rep : Nat
  deriving DecidableEq, Repr

/-- `struct campaign`. -/
structure Plan where
  samples : List Sample
  policies : List Policy
  repeats : Nat
  concurrency : Nat
  timeout_sec : Nat
  preload : Bytes
  ctl_sock : Bytes
  journal_base : Bytes
  cells : List Cell
  deriving DecidableEq, Repr

def error (text : Bytes) : Bytes := snprintf 256 text

def copy_name (src : Option Bytes) (what : Bytes) : Except Bytes Bytes :=
  match src with
  | none | some [] => .error (error (what ++ bytes ": name required"))
  | some name => .ok (snprintf CAMPAIGN_NAME_MAX name)

def number_or (root : JsonObject) (name : Bytes) (default : Nat) : Nat :=
  let d := json_object_get_number (some root) name
  if 1 ≤ d then ⌊d⌋.toNat else default

def path_of (root : JsonObject) (name : Bytes) : Bytes :=
  snprintf PATH_SIZE ((json_object_get_string (some root) name).getD [])

def load_sample (item : JsonValue) : Except Bytes Sample := do
  let o := json_value_get_object item
  let name ← copy_name (json_object_get_string o (bytes "name")) (bytes "sample")
  match json_object_get_array o (bytes "argv") with
  | none | some [] => .error (error (bytes "sample " ++ name ++ bytes ": argv[] required"))
  | some argv =>
    if CAMPAIGN_MAX_ARGV < argv.length then .error (error (bytes "sample " ++ name ++ bytes ": argv too long"))
    else .ok ⟨name, (List.range argv.length).map fun k => (json_array_get_string argv k).getD []⟩

def load_policy (item : JsonValue) : Except Bytes Policy := do
  let o := json_value_get_object item
  let name ← copy_name (json_object_get_string o (bytes "name")) (bytes "policy")
  match json_object_get_string o (bytes "path") with
  | none | some [] => .error (error (bytes "policy " ++ name ++ bytes ": path required"))
  | some path => .ok ⟨name, snprintf PATH_SIZE path⟩

def load_items (root : JsonObject) (key : Bytes) (max : Nat) : Except Bytes (List JsonValue) :=
  match json_object_get_array (some root) key with
  | none => .error (error (key ++ bytes "[] required"))
  | some items =>
    if items.length = 0 ∨ max < items.length then
      .error (error (key ++ bytes ": 1.." ++ fmtNat max ++ bytes " required"))
    else .ok items

def expand (n_samples n_policies repeats : Nat) : List Cell :=
  (List.range n_samples).flatMap fun i =>
    (List.range n_policies).flatMap fun p => (List.range repeats).map fun r => ⟨i, p, r⟩

def load_manifest (root : JsonObject) : Except Bytes Plan := do
  let repeats := number_or root (bytes "repeats") 1
  let samples ← (← load_items root (bytes "samples") CAMPAIGN_MAX_SAMPLES).mapM load_sample
  let policies ← (← load_items root (bytes "policies") CAMPAIGN_MAX_POLICIES).mapM load_policy
  let want := samples.length * policies.length * repeats
  if MAX_CELLS < want then .error (error (bytes "matrix too large (" ++ fmtNat want ++ bytes " cells)"))
  else
    .ok
      { samples, policies, repeats
        concurrency := number_or root (bytes "concurrency") 1
        timeout_sec := number_or root (bytes "timeout_sec") 30
        preload := path_of root (bytes "preload")
        ctl_sock := path_of root (bytes "ctl_sock")
        journal_base := path_of root (bytes "journal")
        cells := expand samples.length policies.length repeats }

def campaign_load (fs : FS) (manifest_path : Path) : Except Bytes Plan :=
  match (fs manifest_path).bind fun text => json_parse_string (cstr text) with
  | none => .error (error (bytes "cannot parse " ++ manifest_path))
  | some v =>
    match json_value_get_object v with
    | none => .error (error (bytes "manifest root must be an object"))
    | some root => load_manifest root

def Plan.Accepted (c : Plan) : Prop := c.ctl_sock ≠ [] ∧ c.journal_base ≠ []

instance (c : Plan) : Decidable c.Accepted := inferInstanceAs (Decidable (_ ∧ _))

end Retrace.Campaign
