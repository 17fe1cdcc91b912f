import Retrace.CLib.Proofs.BufferProofs
import Retrace.Framing.Framing

/-!
# The frames of the supervisor protocol

`protocol.c`: the header of a frame, in front of its payload, as both sides write and read it; and
the buffer in which a receiver collects a stream of frames.
-/

namespace Retrace.Rpc

open CLib Framing

def RETRACE_RPC_MAGIC : Bytes := [82, 84, 82, 68]

def RETRACE_RPC_VERSION : UInt16 := 1

def RETRACE_RPC_PAYLOAD_MAX : Nat := 2 ^ 20

def RETRACE_RPC_HEADER_SZ : Nat := 12

/-- `enum retrace_rpc_msg_type`. -/
inductive RpcMsg where
  | HELLO
  | HEARTBEAT
  | POLICY_ACK
  | EVENT
  | RING_DATA
  | BYE
  | WELCOME
  | POLICY_SET
  | CMD
  | PING
  deriving DecidableEq, Repr

def RpcMsg.id : RpcMsg → UInt16
  | .HELLO => 1
  | .HEARTBEAT => 2
  | .POLICY_ACK => 3
  | .EVENT => 4
  | .RING_DATA => 5
  | .BYE => 6
  | .WELCOME => 16
  | .POLICY_SET => 17
  | .CMD => 18
  | .PING => 19

structure RpcFrame where
  version : UInt16
  type : UInt16
  length : UInt32
  deriving DecidableEq, Repr

def put_u16le (v : UInt16) : Bytes := [(v.toNat % 256).toUInt8, (v.toNat / 256 % 256).toUInt8]

def put_u32le (v : UInt32) : Bytes :=
  [(v.toNat % 256).toUInt8, (v.toNat / 256 % 256).toUInt8, (v.toNat / 65536 % 256).toUInt8,
    (v.toNat / 16777216 % 256).toUInt8]

def get_u16le (p : Bytes) : UInt16 := ((p.getD 0 0).toNat + (p.getD 1 0).toNat * 256).toUInt16

def get_u32le (p : Bytes) : UInt32 :=
  ((p.getD 0 0).toNat + (p.getD 1 0).toNat * 256 + (p.getD 2 0).toNat * 65536 +
    (p.getD 3 0).toNat * 16777216).toUInt32

def header (fr : RpcFrame) : Bytes :=
  RETRACE_RPC_MAGIC ++ put_u16le fr.version ++ put_u16le fr.type ++ put_u32le fr.length

/-- `retrace_rpc_frame_encode`: the result and what is left in the buffer; `none` is `NULL`. -/
def retrace_rpc_frame_encode (out : Option Bytes) (out_cap : Nat) (version type : UInt16)
    (payload : Option Bytes) (payload_len : UInt32) : Int × Option Bytes :=
  match out with
  | none => (-1, none)
  | some out =>
    if RETRACE_RPC_PAYLOAD_MAX < payload_len.toNat then (-1, some out)
    else if 0 < payload_len.toNat ∧ payload = none then (-1, some out)
    else if out_cap < RETRACE_RPC_HEADER_SZ + payload_len.toNat then (-2, some out)
    else
      (0, some (memcpy out 0 (header ⟨version, type, payload_len⟩ ++
        (payload.getD []).take payload_len.toNat)))

/-- `retrace_rpc_frame_decode`: the header at the start of the buffer, or the negative result. -/
def retrace_rpc_frame_decode (input : Option Bytes) (in_len : Nat) : Except Int RpcFrame :=
  match input with
  | none => .error (-1)
  | some buf =>
    if in_len < RETRACE_RPC_HEADER_SZ then .error (-2)
    else if buf.take 4 ≠ RETRACE_RPC_MAGIC then .error (-3)
    else
      let fr : RpcFrame :=
        ⟨get_u16le (buf.drop 4), get_u16le (buf.drop 6), get_u32le (buf.drop 8)⟩
      if RETRACE_RPC_PAYLOAD_MAX < fr.length.toNat then .error (-4) else .ok fr

structure Message where
  frame : RpcFrame
  payload : Bytes
  deriving DecidableEq

def Message.Ok (m : Message) : Prop :=
  m.payload.length = m.frame.length.toNat ∧ m.payload.length ≤ RETRACE_RPC_PAYLOAD_MAX

def Message.wire (m : Message) : Bytes := header m.frame ++ m.payload

def nextFrame (s : Bytes) : Option (Message × Bytes) :=
  match retrace_rpc_frame_decode (some s) s.length with
  | .error _ => none
  | .ok fr =>
    if RETRACE_RPC_HEADER_SZ + fr.length.toNat ≤ s.length then
      some (⟨fr, (s.drop RETRACE_RPC_HEADER_SZ).take fr.length.toNat⟩,
        s.drop (RETRACE_RPC_HEADER_SZ + fr.length.toNat))
    else none

/-- A buffer of `cap` bytes with a stream's bytes that have not been handed on. -/
structure RecvBuffer (cap : Nat) where
  buf : Bytes
  fill : Nat
  size : buf.length = cap
  fits : fill ≤ cap

variable {cap : Nat}

def RecvBuffer.content (b : RecvBuffer cap) : Bytes := b.buf.take b.fill

def RecvBuffer.reset (b : RecvBuffer cap) : RecvBuffer cap := { b with fill := 0, fits := Nat.zero_le cap }

/-- What `read` returns when `n` bytes have arrived of those that are `pending`: as many as there is
room for. -/
def RecvBuffer.readBytes (b : RecvBuffer cap) (pending : Bytes) (n : Nat) : Bytes :=
  pending.take (min n (cap - b.fill))

theorem RecvBuffer.readBytes_fits (b : RecvBuffer cap) (pending : Bytes) (n : Nat) :
    b.fill + (b.readBytes pending n).length ≤ cap := by
  have := b.fits
  have := List.length_take_le (min n (cap - b.fill)) pending
  unfold readBytes
  omega

def RecvBuffer.append (b : RecvBuffer cap) (d : Bytes) (h : b.fill + d.length ≤ cap) : RecvBuffer cap where
  buf := memcpy b.buf b.fill d
  fill := b.fill + d.length
  size := by
    have := b.size
    rw [memcpy_length (by omega), b.size]
  fits := h

def RecvBuffer.shift (b : RecvBuffer cap) (k : Nat) (h : k ≤ b.fill) : RecvBuffer cap where
  buf := memmove b.buf k (b.fill - k)
  fill := b.fill - k
  size := by
    have := b.size
    have := b.fits
    rw [memmove_length (by omega), b.size]
  fits := by
    have := b.fits
    omega

end Retrace.Rpc
