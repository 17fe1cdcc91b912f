import Retrace.Supervisor.Agent
import Retrace.Daemon.Stream

/-!
# The frames of the daemon at an agent

The part of `agent_thread_main` that reads the connection to the daemon. The bytes a `read` returns are
put behind what is in the agent's buffer and every complete frame is handed to `handle_frame`; a
header that cannot be decoded empties the buffer, and a `read` that returns nothing drops the
connection, also when it was asked for nothing because the buffer is full.
-/

namespace Retrace.Supervisor

open CLib Rpc

def AGENT_BUF_SIZE : Nat := RETRACE_RPC_HEADER_SZ + 4096

def agent_frames {cap : Nat} : Nat → RecvBuffer cap → List Message × RecvBuffer cap
  | 0, b => ([], b)
  | fuel + 1, b =>
    if b.fill < RETRACE_RPC_HEADER_SZ then ([], b)
    else
      match retrace_rpc_frame_decode (some b.buf) b.fill with
      | .error _ => ([], b.reset)
      | .ok fr =>
        if h : RETRACE_RPC_HEADER_SZ + fr.length.toNat ≤ b.fill then
          let handed : Message := ⟨fr, (b.buf.drop RETRACE_RPC_HEADER_SZ).take fr.length.toNat⟩
          let rest := agent_frames fuel (b.shift (RETRACE_RPC_HEADER_SZ + fr.length.toNat) h)
          (handed :: rest.1, rest.2)
        else ([], b)

/-- An agent's connection in the course of its stream: the frames handed on, the buffer, which is gone
when the connection is dropped, and the bytes that have not been read. -/
structure AgentStream where
  handed : List Message := []
  conn : Option (RecvBuffer AGENT_BUF_SIZE)
  pending : Bytes

/-- One round of the loop in which `n` bytes have arrived of those that are pending (0 for an error).
Nothing happens when nothing is pending: `poll` waits. -/
def agent_readable (st : AgentStream) (n : Nat) : AgentStream :=
  match st.conn with
  | none => st
  | some b =>
    if st.pending = [] then st
    else if b.readBytes st.pending n = [] then { st with conn := none }
    else
      let b' := b.append (b.readBytes st.pending n) (b.readBytes_fits st.pending n)
      let r := agent_frames b'.fill b'
      { handed := st.handed ++ r.1
        conn := some r.2
        pending := st.pending.drop (b.readBytes st.pending n).length }

/-- The stream `s` on a connection that is new, with any bytes in the buffer, read as the numbers `ns`
say. -/
def agent_stream (b : RecvBuffer AGENT_BUF_SIZE) (s : Bytes) (ns : List Nat) : AgentStream :=
  ns.foldl agent_readable { conn := some b.reset, pending := s }

def Delivers (b : RecvBuffer AGENT_BUF_SIZE) (s : Bytes) (ns : List Nat) : Prop :=
  0 ∉ ns ∧ ((agent_stream b s ns).pending = [] ∨ (agent_stream b s ns).conn = none)

def ChunkFree (s : Bytes) : Prop :=
  ∀ b b' ns ns', Delivers b s ns → Delivers b' s ns' →
    (agent_stream b s ns).handed = (agent_stream b' s ns').handed

def Fits (m : Message) : Prop := m.Ok ∧ m.wire.length ≤ AGENT_BUF_SIZE

def FrameBehindBad (s : Bytes) : Prop :=
  ∃ (ms : List Message) (r : Bytes), (∀ m ∈ ms, Fits m) ∧ s = ms.flatMap Message.wire ++ r ∧ Retraced.BadHeader r ∧
    ∃ q m t, RETRACE_RPC_HEADER_SZ ≤ q ∧ Fits m ∧ r.drop q = m.wire ++ t

end Retrace.Supervisor
