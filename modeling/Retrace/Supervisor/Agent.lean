import Retrace.Supervisor.Policy
import Retrace.Supervisor.Protocol
import Retrace.Runs.Runs

/-!
# The agent in a traced process

`agent_posix.c`: the frames an agent gets from the daemon. A policy is validated, its cache snapshot
is built and installed, then the config and the epoch; the daemon gets an acknowledgement either way.
Config trees and snapshots that were replaced are never freed, so the state refers to them by value.
-/

namespace Retrace.Supervisor

open CLib Parson Retraced Retrace.Core Rpc

variable (C : Crypto)

/-- The part of `struct agent_state` the frames of the daemon work on, with the config and the cache
snapshot of the process. -/
structure Agent where
  agent_id : Bytes
  id_fits : agent_id.length < 96
  policy_epoch : UInt64
  /-- `retrace_conf`. -/
  retrace_conf : Option JsonObject
  /-- `g_snap`. -/
  g_snap : Option CacheSnap
  sig : SigState C
  /-- The environment variable `RETRACE_SESSION`. -/
  session : Option Bytes
  /-- The calls of `send_frame`, with the result of each and the bytes that went out. -/
  sent : List (RpcMsg × Bytes × Int × Bytes)

structure AgentWorld extends World where
  alloc : CacheAlloc
  /-- `g_real_setenv` was resolved. -/
  setenv_ok : Bool
  /-- What `rc_send` returns. -/
  send_ret : Int

variable {C}

/-- `sock_write` when `rc_send` returns `ret`: the result and the bytes that went out. -/
def sock_write (out : Bytes) (ret : Int) : Int × Bytes := (ret, out.take ret.toNat)

/-- `send_frame`: the result and the bytes that went out. -/
def send_frame (type : RpcMsg) (payload : Bytes) (ret : Int) : Int × Bytes :=
  let size := RETRACE_RPC_HEADER_SZ + 2048
  let plen := min payload.length 2048
  match retrace_rpc_frame_encode (some (List.replicate size 0)) size RETRACE_RPC_VERSION type.id
    (some payload) plen.toUInt32 with
  | (0, some out) =>
    let (n, written) := sock_write (out.take (RETRACE_RPC_HEADER_SZ + plen)) ret
    (if n ≤ 0 then -1 else 0, written)
  | _ => (-1, [])

def Agent.send (w : AgentWorld) (a : Agent C) (type : RpcMsg) (payload : Bytes) : Agent C :=
  { a with sent := a.sent ++ [(type, payload, send_frame type payload w.send_ret)] }

/-- `retrace_agent_policy_apply` with room for `reason_cap` bytes: the result, the reason it leaves and
the agent. -/
def retrace_agent_policy_apply (w : AgentWorld) (a : Agent C) (payload_wrapped : Option Bytes)
    (reason_cap : Nat) : Int × Bytes × Agent C :=
  let (sig, v) := retrace_policy_validate C w.toWorld a.sig payload_wrapped a.policy_epoch
  let a := { a with sig := sig }
  match v with
  | .held => (0, [], a)
  | .refused reason => (-1, snprintf reason_cap reason.text, a)
  | .ok root epoch =>
    match retrace_config_cache_build w.alloc (some root) with
    | none => (-1, snprintf reason_cap Refusal.cache_rebuild.text, a)
    | some snap => (0, [], { a with g_snap := some snap, retrace_conf := some root, policy_epoch := epoch })

def ack_text (agent_id : Bytes) (epoch : UInt64) (applied : Bool) (reason : Bytes) : Bytes :=
  bytes "\x7b\"agent_id\":\"" ++ agent_id ++ bytes "\",\"policy_epoch\":" ++ fmtNat epoch.toNat ++
    bytes ",\"applied\":" ++ (if applied then bytes "true" else bytes "false") ++ bytes ",\"reason\":\"" ++
    (if applied then [] else if reason = [] then bytes "refused" else reason) ++ bytes "\"\x7d"

def send_policy_ack (w : AgentWorld) (a : Agent C) (applied : Bool) (reason : Bytes) : Agent C :=
  a.send w .POLICY_ACK (snprintf 320 (ack_text a.agent_id a.policy_epoch applied reason))

/-- `jscan_str`: the string behind the first `"key":"`, as far as it fits; empty when there is none. -/
def jscan_str (payload key : Bytes) (cap : Nat) : Bytes :=
  let tag := snprintf 48 ([dquote] ++ key ++ bytes "\":\"")
  match strstr payload tag with
  | none => []
  | some s =>
    let body := s.drop tag.length
    if dquote ∈ body then (body.takeWhile (· ≠ dquote)).take (cap - 1) else []

def frame_payload (body : Bytes) (cap : Nat) : Bytes := cstr (body.take (cap - 1))

def handle_policy_set (w : AgentWorld) (a : Agent C) (body : Bytes) : Agent C :=
  let (_, reason, a) := retrace_agent_policy_apply w a (some (frame_payload body 4096)) 96
  send_policy_ack w a (reason = []) reason

theorem jscan_str_length (payload key : Bytes) {cap : Nat} (hcap : 0 < cap) :
    (jscan_str payload key cap).length < cap := by
  unfold jscan_str
  simp only
  split
  · simpa using hcap
  · split
    · rw [List.length_take]
      omega
    · simpa using hcap

def handle_welcome (w : AgentWorld) (a : Agent C) (body : Bytes) : Agent C :=
  let payload := frame_payload body 512
  let token := jscan_str payload (bytes "session_token") 80
  let a : Agent C := { a with
    agent_id := jscan_str payload (bytes "agent_id") 96
    id_fits := jscan_str_length _ _ (by omega) }
  if token ≠ [] ∧ w.setenv_ok ∧ a.session ≠ some token then { a with session := some token } else a

def handle_frame (w : AgentWorld) (a : Agent C) (m : Message) : Agent C :=
  if m.frame.type = RpcMsg.WELCOME.id then handle_welcome w a m.payload
  else if m.frame.type = RpcMsg.POLICY_SET.id then handle_policy_set w a m.payload
  else if m.frame.type = RpcMsg.PING.id then a.send w .PING (bytes "\x7b\x7d")
  else a

def policyRoot (payload : Bytes) : Option JsonObject := do
  let v ← json_parse_string payload
  let doc ←
    match json_object_get_object (json_value_get_object v) (bytes "sig"),
      json_object_get_string (json_value_get_object v) (bytes "blob") with
    | none, none => some payload
    | some _, some blob => some blob
    | _, _ => none
  let v ← json_parse_string (snprintf 8192 doc)
  json_value_get_object v

def policyEpoch (root : JsonObject) : UInt64 :=
  doubleToU64 (json_object_get_number (json_object_get_object (some root) (bytes "policy")) (bytes "epoch"))

def Agent.installed (a : Agent C) : Option JsonObject × Option CacheSnap × UInt64 :=
  (a.retrace_conf, a.g_snap, a.policy_epoch)

structure Delivery where
  world : AgentWorld
  payload : Bytes

def applied (a : Agent C) (d : Delivery) : Int × Bytes × Agent C :=
  retrace_agent_policy_apply d.world a (some (cstr d.payload)) 96

def deliver (a : Agent C) (d : Delivery) : Agent C := (applied a d).2.2

/-- One delivery keeps the policy state together: the config and the snapshot change only with an
increase of the epoch, and then all three come from the payload. -/
structure AtomicStep (a : Agent C) (d : Delivery) : Prop where
  mono : a.policy_epoch ≤ (deliver a d).policy_epoch
  changes : (deliver a d).retrace_conf ≠ a.retrace_conf ∨ (deliver a d).g_snap ≠ a.g_snap →
    a.policy_epoch < (deliver a d).policy_epoch
  source : a.policy_epoch < (deliver a d).policy_epoch →
    ∃ root, policyRoot (cstr d.payload) = some root ∧ (deliver a d).retrace_conf = some root ∧
      (deliver a d).g_snap = retrace_config_cache_build d.world.alloc (some root) ∧
      (deliver a d).policy_epoch = policyEpoch root
  refused : (applied a d).1 ≠ 0 → (deliver a d).installed = a.installed
  redelivered : ∀ root, policyRoot (cstr d.payload) = some root → policyEpoch root = a.policy_epoch →
    (deliver a d).installed = a.installed

/-- The answer to a `POLICY_SET` frame is one acknowledgement, which says `applied` exactly when the
policy was applied. -/
def AcksApplied (w : AgentWorld) (a : Agent C) (m : Message) : Prop :=
  ∃ reason applied ack,
    ack = ack_text (handle_frame w a m).agent_id (handle_frame w a m).policy_epoch applied reason ∧
    (handle_frame w a m).sent = a.sent ++ [(RpcMsg.POLICY_ACK, ack, send_frame .POLICY_ACK ack w.send_ret)] ∧
    (applied = true ↔
      (retrace_agent_policy_apply w a (some (frame_payload m.payload 4096)) 96).1 = 0)

end Retrace.Supervisor
