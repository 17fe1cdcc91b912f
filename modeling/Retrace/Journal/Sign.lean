import Retrace.Journal.Reader

/-!
# Sealing the journal

`journal_sign.c`: the seal is a record with an ed25519 signature over the head and the line count of
one file, and the check of a sealed file. The functions of the crypto library are parameters.
-/

namespace Retrace.Retraced

open CLib

structure Crypto where
  PrivateKey : Type
  PublicKey : Type
  /-- `PEM_read_PrivateKey`, of the content of the key file. -/
  readPrivateKey : Bytes → Option PrivateKey
  /-- `PEM_read_PUBKEY`. -/
  readPublicKey : Bytes → Option PublicKey
  /-- `EVP_DigestSign` with its initialisation: the signature of a message. -/
  digestSign : PrivateKey → Bytes → Option Bytes
  /-- `EVP_DigestVerifyInit`. -/
  verifyInit : PublicKey → Bool
  /-- `EVP_DigestVerify` of the first `sig_len` bytes of a buffer as the signature of a message. -/
  digestVerify : PublicKey → (sig : Bytes) → (sig_len : Nat) → (msg : Bytes) → Bool
  /-- `EVP_EncodeBlock`. -/
  encodeBlock : Bytes → Bytes
  /-- `EVP_DecodeBlock`; `none` is the return value -1. -/
  decodeBlock : Bytes → Option Bytes

def noCrypto : Crypto where
  PrivateKey := Unit
  PublicKey := Unit
  readPrivateKey _ := none
  readPublicKey _ := none
  digestSign _ _ := none
  verifyInit _ := false
  digestVerify _ _ _ _ := false
  encodeBlock _ := []
  decodeBlock _ := none

variable (C : Crypto)

inductive SignError where
  | chain_broken (line : Nat)
  | cannot_read_key (key_path : Path)
  | bad_key (key_path : Path)
  | sign_failed
  | record_too_long
  deriving DecidableEq, Repr

def SignError.text : SignError → Bytes
  | .chain_broken line => bytes "chain broken at line " ++ fmtNat line ++ bytes " -- refusing to sign"
  | .cannot_read_key key_path => bytes "cannot read key " ++ cstr key_path
  | .bad_key key_path => bytes "bad key " ++ cstr key_path
  | .sign_failed => bytes "sign failed"
  | .record_too_long => bytes "record too long"

def sign_head (fs : FS) (key_path : Path) (msg : Bytes) : Except SignError Bytes :=
  match fs key_path with
  | none => .error (.cannot_read_key key_path)
  | some pem =>
    match C.readPrivateKey pem with
    | none => .error (.bad_key key_path)
    | some key =>
      match C.digestSign key msg with
      | none => .error .sign_failed
      | some sig => .ok sig

def seal_message (head : Bytes) (lines : Bytes) : Bytes :=
  snprintf 64 (bytes "head=" ++ cstr head ++ bytes " lines=" ++ lines)

def fmtHex2 (b : UInt8) : Bytes := hexFixed 2 b.toNat

def seal_text (sig : Bytes) (head : UInt64) (lines : Nat) : Bytes :=
  bytes "\x7b\"name\":\"retrace.journal.signed\",\"alg\":\"ed25519\",\"key_id\":\"" ++
    fmtHex2 (sig.getD 0 0) ++ fmtHex2 (sig.getD 1 0) ++ bytes "\",\"head\":\"" ++ fmtHex16 head ++
    bytes "\",\"lines\":" ++ fmtNat lines ++ bytes ",\"sig\":\"" ++ cstr (C.encodeBlock sig) ++
    bytes "\"\x7d"

/-- `retraced_journal_sign_file` with room for `rec_cap` bytes: the record to append. -/
def retraced_journal_sign_file (fs : FS) (key_path journal_path : Path) (rec_cap : Nat) :
    Except SignError Bytes :=
  let chain := retraced_journal_chain_file fs journal_path 0
  if chain.ret ≠ 0 then .error (.chain_broken chain.broken_at)
  else
    match sign_head C fs key_path (seal_message (fmtHex16 chain.head_out) (fmtNat chain.lines_out)) with
    | .error e => .error e
    | .ok sig =>
      let text := seal_text C sig chain.head_out chain.lines_out
      if rec_cap ≤ text.length then .error .record_too_long else .ok text

def seal_marker : Bytes := bytes "retrace.journal.signed"

/-- What `read_seal` finds. -/
structure Seal where
  line : Bytes
  head_hex : Bytes
  lines_sealed : Int

def read_seal (fs : FS) (journal_path : Path) : Option Seal := do
  let content ← fs journal_path
  let lines := (journal_chunks content).map cstr
  let line ← (lines.filter fun l => (strstr l seal_marker).isSome).getLast?
  let h ← strstr line (bytes "\"head\":\"")
  let l ← strstr line (bytes "\"lines\":")
  some ⟨line, snprintf 32 ((h.drop 8).take 16), strtol10 (l.drop 8)⟩

def base64_pad (s : Bytes) : Nat := ((s.reverse.take 2).takeWhile (· = 61)).length

/-- `pull_b64`: the signature in a seal and its length, in the arithmetic of `size_t`. -/
def pull_b64 (line : Bytes) : Option (Bytes × Nat) := do
  let s ← strstr line (bytes "\"sig\":\"")
  let s := s.drop 7
  let text := s.takeWhile (· ≠ dquote)
  if text.length = s.length ∨ 128 < text.length / 4 * 3 then none
  else
    let decoded := C.decodeBlock text
    let len := ((decoded.map List.length).getD (2 ^ 64 - 1) + 2 ^ 64 - base64_pad text) % 2 ^ 64
    if len = 0 then none else some (decoded.getD [], len)

inductive SealVerdict where
  | chain_broken (line : Nat)
  | empty
  | no_seal
  | sealed_lines (sealed : Int) (chain : Nat)
  | no_pubkey
  | bad_pubkey
  | unreadable_signature
  | init_failed
  | mismatch
  | sealed_head (head_hex want : Bytes)
  /-- The only one with the return value 0. -/
  | verified (lines : Nat)
  deriving DecidableEq, Repr

def SealVerdict.text : SealVerdict → Bytes
  | .chain_broken line => bytes "chain broken at line " ++ fmtNat line
  | .empty => bytes "empty journal"
  | .no_seal => bytes "no seal (unsigned journal)"
  | .sealed_lines sealed chain =>
    bytes "sealed lines " ++ fmtInt sealed ++ bytes " != chain " ++ fmtNat chain
  | .no_pubkey => bytes "cannot read pubkey"
  | .bad_pubkey => bytes "bad pubkey"
  | .unreadable_signature => bytes "seal signature unreadable"
  | .init_failed => bytes "verify init failed"
  | .mismatch => bytes "signature mismatch"
  | .sealed_head head_hex want => bytes "sealed head " ++ head_hex ++ bytes " != chain " ++ want
  | .verified lines => bytes "verified + signed (ed25519, " ++ fmtNat lines ++ bytes " lines)"

def SealVerdict.ok : SealVerdict → Bool
  | .verified _ => true
  | _ => false

def verify_sealed_head (fs : FS) (journal_path : Path) (lines : Nat) (head_hex : Bytes) : SealVerdict :=
  let chain := retraced_journal_chain_file fs journal_path (lines - 1)
  if chain.ret ≠ 0 then .chain_broken chain.broken_at
  else if head_hex ≠ fmtHex16 chain.head_out then .sealed_head head_hex (fmtHex16 chain.head_out)
  else .verified lines

def verify_signature (fs : FS) (pubkey_path : Path) (found : Seal) (next : SealVerdict) : SealVerdict :=
  match fs pubkey_path with
  | none => .no_pubkey
  | some pem =>
    match C.readPublicKey pem with
    | none => .bad_pubkey
    | some pub =>
      match pull_b64 C found.line with
      | none => .unreadable_signature
      | some (sig, sig_len) =>
        if !C.verifyInit pub then .init_failed
        else if !C.digestVerify pub sig sig_len
            (seal_message found.head_hex (fmtInt found.lines_sealed)) then .mismatch
        else next

def retraced_journal_verify_file (fs : FS) (journal_path pubkey_path : Path) : SealVerdict :=
  let chain := retraced_journal_chain_file fs journal_path 0
  if chain.ret ≠ 0 then .chain_broken chain.broken_at
  else if chain.lines_out = 0 then .empty
  else
    match read_seal fs journal_path with
    | none => .no_seal
    | some found =>
      if found.lines_sealed % 2 ^ 64 ≠ (chain.lines_out - 1 : Nat) then
        .sealed_lines found.lines_sealed (chain.lines_out - 1)
      else
        verify_signature C fs pubkey_path found
          (verify_sealed_head fs journal_path chain.lines_out found.head_hex)

end Retrace.Retraced
