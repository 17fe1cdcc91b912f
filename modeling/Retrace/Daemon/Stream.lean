import Retrace.Supervisor.Proofs.ProtocolProofs

/-!
# The frames of an agent connection

The part of the loop of `main` that reads an agent's connection: the bytes a `read` returns are put
behind what is in the connection's buffer, and every complete frame is handed to
`handle_agent_frame`, which does not touch the buffer. The model lists the frames with the payload
that stands in the buffer.
-/

namespace Retrace.Retraced

open CLib Rpc

/-- `sizeof(conns[i].buf)`: one frame with the longest payload. -/
def CONN_BUF_SIZE : Nat := RETRACE_RPC_PAYLOAD_MAX + RETRACE_RPC_HEADER_SZ

/-- The inner loop: the frames handed on and the buffer behind them. Each round shifts out a header at
least, so there are fewer rounds than bytes. -/
def conn_frames {cap : Nat} : Nat → RecvBuffer cap → List Message × RecvBuffer cap
  | 0, b => ([], b)
  | fuel + 1, b =>
    if b.fill < RETRACE_RPC_HEADER_SZ then ([], b)
    else
      match retrace_rpc_frame_decode (some b.buf) b.fill with
      | .error _ => ([], b)
      | .ok fr =>
        if h : RETRACE_RPC_HEADER_SZ + fr.length.toNat ≤ b.fill then
          let handed : Message := ⟨fr, (b.buf.drop RETRACE_RPC_HEADER_SZ).take fr.length.toNat⟩
          let rest := conn_frames fuel (b.shift (RETRACE_RPC_HEADER_SZ + fr.length.toNat) h)
          (handed :: rest.1, rest.2)
        else ([], b)

/-- A connection in the course of its stream: the frames handed on, the buffer, which is gone when the
connection is closed, and the bytes that have not been read. -/
structure ConnStream where
  handed : List Message := []
  conn : Option (RecvBuffer CONN_BUF_SIZE)
  pending : Bytes

/-- One `read`, when `n` bytes have arrived (0 for an error). When it returns nothing, the connection is
closed. -/
def conn_readable (st : ConnStream) (n : Nat) : ConnStream :=
  match st.conn with
  | none => st
  | some b =>
    if b.readBytes st.pending n = [] then { st with conn := none }
    else
      let b' := b.append (b.readBytes st.pending n) (b.readBytes_fits st.pending n)
      let r := conn_frames b'.fill b'
      { handed := st.handed ++ r.1
        conn := some r.2
        pending := st.pending.drop (b.readBytes st.pending n).length }

/-- The stream `s` of a connection that was accepted in a slot with the buffer `b`, read as the numbers
`ns` say. -/
def conn_stream (b : RecvBuffer CONN_BUF_SIZE) (s : Bytes) (ns : List Nat) : ConnStream :=
  ns.foldl conn_readable { conn := some b.reset, pending := s }

/-- The messages `ms` are the longest beginning of the stream that consists of complete frames. -/
def LongestFrames (s : Bytes) (ms : List Message) : Prop :=
  (∀ m ∈ ms, m.Ok) ∧ ∃ r, s = ms.flatMap Message.wire ++ r ∧ ∀ (m : Message) t, m.Ok → r ≠ m.wire ++ t

def BadHeader (s : Bytes) : Prop :=
  RETRACE_RPC_HEADER_SZ ≤ s.length ∧
    (s.take 4 ≠ RETRACE_RPC_MAGIC ∨ RETRACE_RPC_PAYLOAD_MAX < (get_u32le (s.drop 8)).toNat)

end Retrace.Retraced
