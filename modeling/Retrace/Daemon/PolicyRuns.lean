import Retrace.Daemon.Delivery

/-!
# Runs of the policy verbs

A daemon that has booted, with or without a policy file, and the policy verbs of its controllers in
any order. The verbs reply, so a controller knows which of them were carried out.
-/

namespace Retrace.Retraced

open CLib Parson Rpc Runs

inductive PolicyVerb where
  | push (line : Bytes)
  | freeze
  | thaw

def policy_verb (c : Ctl) : PolicyVerb → Ctl × List Effect
  | .push line => verb_policy_push c (request line)
  | .freeze => verb_freeze c
  | .thaw => verb_thaw c

def policyStep (c : Ctl) (v : PolicyVerb) : Ctl := (policy_verb c v).1

/-- The states in which a daemon begins to serve: `--policy` is optional. -/
inductive PolicyBooted : Ctl → Prop where
  | bare (conns : List Conn) (scopes : UInt32) : PolicyBooted { conns := conns, scopes := scopes }
  | loaded {conns : List Conn} {scopes : UInt32} {content : Bytes} {c : Ctl}
      (h : load_policy { conns := conns, scopes := scopes } content = some c) : PolicyBooted c

def docEpoch (root : JsonObject) : ℚ :=
  json_object_get_number (json_object_get_object (some root) (bytes "policy")) (bytes "epoch")

def setEpoch (root : JsonObject) (d : ℚ) : JsonObject :=
  match json_object_get_object (some root) (bytes "policy") with
  | some pol =>
    json_object_set_value root (bytes "policy") (.object (json_object_set_number pol (bytes "epoch") d))
  | none => root

def Ctl.Holds (c : Ctl) (root : JsonObject) : Prop :=
  ∃ blob, c.policy_blob = some blob ∧ policy_document blob = some (some root)

/-- Freezing any positive number of times and thawing brings back the document that was in force, but
for its epoch, which is above every epoch installed before. -/
def ThawRestores (c₀ : Ctl) (vs : List PolicyVerb) (n : Nat) : Prop :=
  ∃ root root', (run policyStep c₀ vs).Holds root ∧
    (run policyStep c₀ (vs ++ List.replicate (n + 1) .freeze ++ [.thaw])).Holds root' ∧
    root' = setEpoch root (docEpoch root') ∧
    ∀ pre r, pre <+: vs ++ List.replicate (n + 1) .freeze → (run policyStep c₀ pre).Holds r →
      docEpoch r < docEpoch root'

/-- The signed numbers of a JSON text, each with the rest of the text: `prev` is the character before it,
`inside` whether it is in a string. The minus of an exponent is none of them. -/
def signedNumbers (prev : UInt8) (inside : Bool) : Bytes → List Bytes
  | [] => []
  | c :: text =>
    (if c = 45 ∧ inside = false ∧ tolower prev ≠ 101 then [c :: text] else []) ++
      signedNumbers (if prev = 92 ∧ c = 92 then 0 else c) (inside != (c == 34 && prev != 92)) text

/-- A policy that can be parsed, stamped with another epoch and serialised again: it is not wrapped, has
no subnormal number and no negative zero (parson writes that with its sign, `fmtG17` without), and fits
the buffer of `verb_thaw`. -/
def Restorable (text : Bytes) : Prop :=
  (∀ number ∈ signedNumbers 0 false text, (strtod number).value ≠ some 0) ∧
  ∃ root, json_parse_string text = some (.object root) ∧
    json_object_get_string (some root) (bytes "blob") = none ∧
    allNumbers notSubnormal (.object root) = true ∧
    ∀ epoch : Int64, 0 ≤ epoch.toInt → epoch.toInt < 2 ^ 53 →
      (json_serialize_to_string (restamp (.object root) epoch)).length < 8192

/-- A verb that keeps the epochs below `2 ^ 53` and in order, and pushes what can be restored. -/
def RestorableStep (c : Ctl) : PolicyVerb → Prop
  | .push line =>
    ∀ blob root, json_object_get_string (request line) (bytes "blob") = some blob →
      policy_document blob = some (some root) → 1 ≤ docEpoch root →
      Restorable blob ∧ docEpoch root < 2 ^ 53 ∧ c.policy_epoch ≤ doubleToLong (docEpoch root)
  | .freeze => c.policy_epoch.toInt + 1 < 2 ^ 53
  | .thaw => c.policy_epoch.toInt + 1 < 2 ^ 53

def SomeOk (c₀ : Ctl) (vs : List PolicyVerb) : Prop :=
  ∃ pre v post, vs = pre ++ v :: post ∧ RepliesOk (policy_verb (run policyStep c₀ pre) v).2

end Retrace.Retraced
