import Retrace.Daemon.Control
import Retrace.Supervisor.AgentStream

/-!
# Policies on their way to the agents

A policy the daemon has accepted is written to its agents as one frame. Whether it arrives depends on
the agent's buffers: one for the frame, and one for a copy of its payload.
-/

namespace Retrace.Retraced

open CLib Parson Rpc Supervisor

def request (line : Bytes) : Option JsonObject := (json_parse_string line).bind json_value_get_object

def RepliesOk (es : List Effect) : Prop := ∃ line, Effect.reply line ∈ es ∧ bytes "\x7b\"ok\":1" <+: line

inductive Accepted : Bytes → Prop where
  | pushed {c : Ctl} {line blob : Bytes} (hok : RepliesOk (verb_policy_push c (request line)).2)
      (hblob : (verb_policy_push c (request line)).1.policy_blob = some blob) : Accepted blob
  | loaded {c c' : Ctl} {content blob : Bytes} (hok : load_policy c content = some c')
      (hblob : c'.policy_blob = some blob) : Accepted blob

def policyMessage (blob : Bytes) : Message :=
  ⟨⟨RETRACE_RPC_VERSION, RpcMsg.POLICY_SET.id, UInt32.ofNat blob.length⟩, blob⟩

structure Reaches (blob : Bytes) : Prop where
  /-- Behind any frames that fit, and however it is cut by the reads, its frame is handed on. -/
  handed : ∀ (before : List Message) (b : RecvBuffer AGENT_BUF_SIZE) (ns : List Nat),
    (∀ m ∈ before, m.Ok ∧ m.wire.length ≤ AGENT_BUF_SIZE) → 0 ∉ ns →
    (before.flatMap Message.wire ++ write_frame .POLICY_SET blob).length ≤ ns.length →
    (agent_stream b (before.flatMap Message.wire ++ write_frame .POLICY_SET blob) ns).handed =
        before ++ [policyMessage blob] ∧
      (agent_stream b (before.flatMap Message.wire ++ write_frame .POLICY_SET blob) ns).conn.isSome
  copied : frame_payload blob 4096 = blob
  answered : ∀ (C : Crypto) (w : AgentWorld) (a : Agent C),
    ∃ ack, (handle_frame w a (policyMessage blob)).sent =
      a.sent ++ [(RpcMsg.POLICY_ACK, ack, send_frame .POLICY_ACK ack w.send_ret)]

end Retrace.Retraced
