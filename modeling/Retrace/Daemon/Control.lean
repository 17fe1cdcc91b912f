import Retrace.Json.Serialize
import Retrace.Supervisor.Protocol

/-!
# The policy verbs of the controller

`retraced_ctl.c`: the state of the controller plane, the policies a controller installs, and the frames
with which the daemon hands them to its agents; `load_policy` and `write_frame` of `main.c`. What the
functions do to the world outside is listed in order: frames written, journal records, reply lines.
-/

namespace Retrace.Retraced

open CLib Parson Rpc

def MAX_AGENTS : Nat := 128

def POLICY_MAX_BYTES : Nat := 4000

/-- `struct conn`, but for the frame buffer. -/
structure Conn where
  /-- The file descriptor; `none` for -1, a slot that is free. -/
  fd : Option Nat := none
  /-- The target of writes; `none` for `NULL`. -/
  io : Option Nat := none
  agent_id : Bytes := []
  helloed : Bool := false
  spectator : Bool := false
  deriving DecidableEq

inductive Effect where
  /-- A frame with this payload is written to `io`. -/
  | send (io : Nat) (type : RpcMsg) (payload : Bytes)
  /-- `retraced_journal_event`. -/
  | journal (agent_id : Bytes) (seq : UInt64) (event : Bytes)
  | reply (line : Bytes)
  deriving DecidableEq

/-- `struct retraced_ctl_ctx`, but for its collaborators and the framing state. -/
structure Ctl where
  policy_blob : Option Bytes := none
  policy_epoch : Int64 := 0
  frozen : Bool := false
  thaw_blob : Option Bytes := none
  /-- The slots for connections, `MAX_AGENTS` of them. -/
  conns : List Conn
  scopes : UInt32

/-- `write_frame`: the bytes that are written. -/
def write_frame (type : RpcMsg) (payload : Bytes) : Bytes :=
  let size := RETRACE_RPC_HEADER_SZ + payload.length
  match retrace_rpc_frame_encode (some (List.replicate size 0)) size RETRACE_RPC_VERSION type.id (some payload)
    (UInt32.ofNat payload.length) with
  | (0, some out) => out
  | _ => []

/-- The checks of `retraced_policy_load` on a document: its epoch. -/
def policy_check (root : Option JsonObject) : Option Int64 :=
  let epoch :=
    match json_object_get_object root (bytes "policy") with
    | some pol => json_object_get_number (some pol) (bytes "epoch")
    | none => 0
  if epoch < 1 ∨ (root.isSome ∧ (json_object_get_array root (bytes "intercept_scripts")).isNone) then none
  else some (doubleToLong epoch)

/-- The document `retraced_policy_load` looks at: that of the text, or of the string in its wrapper. -/
def policy_document (text : Bytes) : Option (Option JsonObject) := do
  let v ← json_parse_string text
  match json_object_get_string (json_value_get_object v) (bytes "blob") with
  | some blob =>
    let bv ← json_parse_string blob
    some (json_value_get_object bv)
  | none => some (json_value_get_object v)

/-- `retraced_policy_load`: the text to hold and its epoch. -/
def retraced_policy_load (text : Bytes) : Option (Bytes × Int64) := do
  let root ← policy_document text
  let epoch ← policy_check root
  some (text, epoch)

def load_policy (c : Ctl) (content : Bytes) : Option Ctl :=
  if content.length = 0 ∨ POLICY_MAX_BYTES < content.length then none
  else
    match retraced_policy_load (cstr content) with
    | none => none
    | some (blob, epoch) => some { c with policy_blob := some blob, policy_epoch := epoch }

def retraced_ctl_set_policy (c : Ctl) (blob : Bytes) (epoch : Int64) : Ctl :=
  { c with policy_blob := some blob, policy_epoch := epoch }

/-- `retraced_ctl_push_policy`: the frames it sends; their number is the result. -/
def retraced_ctl_push_policy (c : Ctl) (blob : Bytes) : List Effect :=
  c.conns.filterMap fun conn =>
    match conn.io with
    | some io => if conn.helloed ∧ ¬conn.spectator then some (.send io .POLICY_SET blob) else none
    | none => none

def ctl_reply (text : Bytes) : List Effect := if text = [] then [] else [.reply (snprintf 1024 text)]

def policy_reply (epoch : Int64) (pushed : Nat) : Bytes :=
  bytes "\x7b\"ok\":1,\"epoch\":" ++ fmtInt epoch.toInt ++ bytes ",\"pushed\":" ++ fmtNat pushed ++ bytes "\x7d\n"

def policy_event (name : Bytes) (epoch : Int64) (pushed : Nat) : Bytes :=
  bytes "\x7b\"name\":\"" ++ name ++ bytes "\",\"epoch\":" ++ fmtInt epoch.toInt ++ bytes ",\"agents\":" ++
    fmtNat pushed ++ bytes "\x7d"

/-- The end of the policy verbs: the policy is sent, the record written into `cap` bytes, the reply
given. -/
def policy_installed (c : Ctl) (blob : Bytes) (epoch : Int64) (name : Bytes) (cap : Nat) : List Effect :=
  let sent := retraced_ctl_push_policy c blob
  sent ++ [.journal (bytes "daemon") 0 (snprintf cap (policy_event name epoch sent.length))] ++
    ctl_reply (policy_reply epoch sent.length)

def verb_policy_push (c : Ctl) (o : Option JsonObject) : Ctl × List Effect :=
  match json_object_get_string o (bytes "blob") with
  | none => (c, ctl_reply (bytes "\x7b\"ok\":0,\"error\":\"no blob\"\x7d\n"))
  | some in_blob =>
    match retraced_policy_load in_blob with
    | none => (c, ctl_reply (bytes "\x7b\"ok\":0,\"error\":\"bad policy (need policy.epoch + scripts)\"\x7d\n"))
    | some (blob, epoch) =>
      let c := { retraced_ctl_set_policy c blob epoch with frozen := false, thaw_blob := some blob }
      (c, policy_installed c blob epoch (bytes "retrace.policy.pushed") 160)

def freeze_text (epoch : Int64) : Bytes :=
  bytes "\x7b\"policy\":\x7b\"epoch\":" ++ fmtInt epoch.toInt ++
    bytes "\x7d,\"intercept_scripts\":[\x7b\"func_name\":\"*\",\"actions\":[\x7b\"action_name\":\"freeze\"\x7d]\x7d]\x7d"

def verb_freeze (c : Ctl) : Ctl × List Effect :=
  let epoch := c.policy_epoch + 1
  let blob := snprintf 256 (freeze_text epoch)
  let c := { retraced_ctl_set_policy c blob epoch with frozen := true }
  (c, policy_installed c blob epoch (bytes "retrace.policy.freeze") 128)

def thaw_default : Bytes := bytes "\x7b\"policy\":\x7b\"epoch\":1\x7d,\"intercept_scripts\":[]\x7d"

def restamp (v : JsonValue) (epoch : Int64) : JsonValue :=
  match v with
  | .object root =>
    match json_object_get_object (some root) (bytes "policy") with
    | some pol =>
      .object (json_object_set_value root (bytes "policy")
        (.object (json_object_set_number pol (bytes "epoch") (roundDouble epoch.toInt))))
    | none => v
  | v => v

def thaw_text (thaw_blob : Option Bytes) (epoch : Int64) : Bytes :=
  let src := thaw_blob.getD thaw_default
  match json_parse_string src with
  | some v => json_serialize_to_string (restamp v epoch)
  | none => src

def verb_thaw (c : Ctl) : Ctl × List Effect :=
  let epoch := c.policy_epoch + 1
  let thawed := snprintf 8192 (thaw_text c.thaw_blob epoch)
  let c := { retraced_ctl_set_policy c thawed epoch with frozen := false }
  (c, policy_installed c thawed epoch (bytes "retrace.policy.thaw") 128)

end Retrace.Retraced
