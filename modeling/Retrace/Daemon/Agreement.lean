import Retrace.Daemon.PolicyRuns

/-!
# The policy in force at an agent

The policies a daemon installs one after the other, and an agent that gets each of them in a frame and
applies it. Daemon and agent agree when they are at the same epoch and the agent's config is the
document of the daemon's policy.
-/

namespace Retrace.Retraced

open CLib Parson Rpc Runs Supervisor

def policyFrames (io : Nat) (es : List Effect) : List Bytes :=
  es.filterMap fun e =>
    match e with
    | .send k .POLICY_SET payload => if k = io then some payload else none
    | _ => none

def policySent (io : Nat) : Ctl → List PolicyVerb → List Bytes
  | _, [] => []
  | c, v :: vs => policyFrames io (policy_verb c v).2 ++ policySent io (policyStep c v) vs

def FullRole (conns : List Conn) (io : Nat) : Prop :=
  ∃ conn, conns.filter (fun n => n.io = some io) = [conn] ∧ conn.helloed = true ∧ conn.spectator = false

variable {C : Crypto}

structure Agree (c : Ctl) (a : Agent C) : Prop where
  epoch : (a.policy_epoch.toNat : ℤ) = c.policy_epoch.toInt
  config : ∀ blob, c.policy_blob = some blob → ∃ root, policyRoot blob = some root ∧ a.retrace_conf = some root

def policyText (blob : Bytes) : Bytes :=
  (json_object_get_string ((json_parse_string blob).bind json_value_get_object) (bytes "blob")).getD blob

structure Complete (blob : Bytes) : Prop where
  both : (json_object_get_object ((json_parse_string blob).bind json_value_get_object) (bytes "sig")).isSome ↔
    (json_object_get_string ((json_parse_string blob).bind json_value_get_object) (bytes "blob")).isSome
  fits : (policyText blob).length < 8192

/-- A verb after which the agents can follow: a push carries a complete policy with an epoch above the
daemon's, and what is thawed is bare and can be restored. -/
def OrderedStep (c : Ctl) : PolicyVerb → Prop
  | .push line =>
    ∀ blob root, json_object_get_string (request line) (bytes "blob") = some blob →
      policy_document blob = some (some root) → 1 ≤ docEpoch root →
      Complete blob ∧ c.policy_epoch < doubleToLong (docEpoch root) ∧ docEpoch root < 2 ^ 53
  | .freeze => c.policy_epoch.toInt + 1 < 2 ^ 53
  | .thaw => c.policy_epoch.toInt + 1 < 2 ^ 53 ∧ ∀ text, c.thaw_blob = some text → Restorable text

/-- The states of a daemon that has kept to such verbs since it began to serve, while agents came and
went. -/
inductive OrderedRun : Ctl → Prop where
  | boot {c : Ctl} (h : PolicyBooted c) (hlow : ∀ root, c.Holds root → docEpoch root < 2 ^ 53) : OrderedRun c
  | conns {c : Ctl} (h : OrderedRun c) (conns : List Conn) : OrderedRun { c with conns := conns }
  | verb {c : Ctl} {v : PolicyVerb} (h : OrderedRun c) (hok : OrderedStep c v) : OrderedRun (policyStep c v)

/-- A signature the agent does not refuse: in a build that can verify, with a valid signature or
without pinned keys. -/
structure SignatureOk (w : Supervisor.World) (st : SigState C) (sig : JsonObject) (blob : Bytes) : Prop where
  openssl : w.openssl = true
  alg : copy_str_field sig (bytes "alg") 32 = bytes "ed25519"
  present : copy_str_field sig (bytes "sig") SIG_B64_MAX ≠ []
  valid : st.g_pinned = false ∨
    st.g_keys.any fun key => verify_b64 C key (copy_str_field sig (bytes "sig") SIG_B64_MAX) blob

/-- A delivery at which the signature is not refused, the policy has not expired and memory suffices. -/
structure Taken (a : Agent C) (d : Delivery) : Prop where
  signature : ∀ sig blob,
    json_object_get_object ((json_parse_string (cstr d.payload)).bind json_value_get_object)
      (bytes "sig") = some sig →
    json_object_get_string ((json_parse_string (cstr d.payload)).bind json_value_get_object)
      (bytes "blob") = some blob →
    SignatureOk d.world.toWorld (retrace_policy_sig_init C d.world.toWorld a.sig) sig blob
  unexpired : ∀ root pol, policyRoot (cstr d.payload) = some root →
    json_object_get_object (some root) (bytes "policy") = some pol →
    ¬(0 < json_object_get_number (some pol) (bytes "expires") ∧
      doubleToLong (json_object_get_number (some pol) (bytes "expires")) ≤ d.world.now)
  snapshot : d.world.alloc.snap_ok = true

end Retrace.Retraced
