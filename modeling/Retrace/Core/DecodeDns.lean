import Retrace.CLib.CString

/-!
# Decoding DNS messages

`decode_dns.c`: the header of a message, the name of its first question and the type of the question. The name is
parsed up to a bound of 65536 bytes, whatever the length of the message is, into an array on the stack that has
only its first byte set before.
-/

namespace Retrace.Core

open CLib

abbrev Packet := Nat → UInt8

def DNS_HEADER_LEN : Nat := 12

def DNS_MAX_NAME : Nat := 256

def DNS_PARSE_BOUND : Nat := 65536

def read_u16be (buf : Packet) (i : Nat) : Nat := (buf i).toNat * 256 + (buf (i + 1)).toNat

/-- What is written after a label of `label_len` bytes at `pos`: a dot in front of it unless it is the
first, as far as there is room. -/
def qname_add (buf : Packet) (out_cap pos label_len : Nat) (out : Bytes) (label_count : Nat) : Bytes :=
  let dotted := if 0 < label_count ∧ out.length < out_cap - 1 then out ++ [46] else out
  dotted ++ ((List.range label_len).map fun i => buf (pos + i)).take (out_cap - 1 - dotted.length)

/-- The loop of `parse_qname`: where the name ends and what is written of it, or what is written when the name is
malformed. Every round goes on by at least one byte. -/
def parse_qname_loop (buf : Packet) (buf_len out_cap : Nat) : Nat → Nat → Bytes → Nat → Except Bytes (Nat × Bytes)
  | 0, pos, out, _ => .ok (pos, out)
  | fuel + 1, pos, out, label_count =>
    if pos < buf_len then
      let label_len := buf pos
      if label_len = 0 then .ok (pos + 1, out)
      else if label_len &&& 0xC0 = 0xC0 then .ok (pos + 2, out)
      else if 63 < label_len then .error out
      else if buf_len < pos + 1 + label_len.toNat then .error out
      else
        parse_qname_loop buf buf_len out_cap fuel (pos + 1 + label_len.toNat)
          (qname_add buf out_cap (pos + 1) label_len.toNat out label_count) (label_count + 1)
    else .ok (pos, out)

def parse_qname (buf : Packet) (buf_len offset out_cap : Nat) : Except Bytes (Nat × Bytes) :=
  parse_qname_loop buf buf_len out_cap buf_len offset [] 0

/-- The text in the array `qname` after the parse; `stack` is what was in it before. A malformed name is not
terminated. -/
def qname_text (stack : Nat → UInt8) : Except Bytes (Nat × Bytes) → Bytes
  | .ok (_, out) => out.takeWhile (· ≠ 0)
  | .error [] => []
  | .error out =>
    (out ++ (List.range (DNS_MAX_NAME - out.length)).map fun i => stack (out.length + i)).takeWhile (· ≠ 0)

structure DnsMessage where
  tx_id : Nat
  qname : Bytes
  qtype : Nat
  deriving DecidableEq, Repr

/-- What `ia_decode_dns` logs: for a response also the number of answers. -/
inductive DnsOutcome where
  | too_short
  | no_questions
  | query (m : DnsMessage)
  | response (m : DnsMessage) (ancount : Nat)
  deriving DecidableEq, Repr

/-- The type of a question whose name ends in front of `pos`. -/
def dns_qtype (buf : Packet) (pos : Nat) : Nat :=
  if DNS_HEADER_LEN < pos ∧ pos + 4 ≤ DNS_PARSE_BOUND then read_u16be buf pos else 0

/-- The question of a message with `qdcount` questions: its name and its type. -/
def dns_question (stack : Nat → UInt8) (buf : Packet) (qdcount : Nat) : Bytes × Nat :=
  if 0 < qdcount then
    let parsed := parse_qname buf DNS_PARSE_BOUND DNS_HEADER_LEN DNS_MAX_NAME
    (qname_text stack parsed, parsed.toOption.elim 0 fun x => dns_qtype buf x.1)
  else ([], 0)

/-- `ia_decode_dns` on the buffer, with the value of the parameter `len` or 0 when there is none. -/
def ia_decode_dns (stack : Nat → UInt8) (buf : Packet) (len : Int) : DnsOutcome :=
  if 0 < len ∧ len < DNS_HEADER_LEN then .too_short
  else
    let flags := read_u16be buf 2
    let qdcount := read_u16be buf 4
    let ancount := read_u16be buf 6
    if qdcount = 0 ∧ ancount = 0 then .no_questions
    else
      let question := dns_question stack buf qdcount
      let m : DnsMessage := ⟨read_u16be buf 0, question.1, question.2⟩
      if 0x8000 ≤ flags then .response m ancount else .query m

end Retrace.Core
