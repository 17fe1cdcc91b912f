import Retrace.Journal.Crash
import Retrace.CLib.Base64

/-!
# Seals that verify

What is supposed of the crypto library and of the state in front of a sealed shutdown, and what the seal
of a file stands for.
-/

namespace Retrace.Retraced

open CLib HashChain

/-- `EVP_EncodeBlock` and `EVP_DecodeBlock` are inverse up to the padding. -/
structure Base64 (C : Crypto) : Prop where
  alphabet : EncodesBase64 C
  length : ∀ s, (C.encodeBlock s).length = 4 * ((s.length + 2) / 3)
  padded : ∀ s, ∃ body, C.encodeBlock s = body ++ List.replicate (base64Fill s) 61 ∧ 61 ∉ body
  decode : ∀ s, C.decodeBlock (C.encodeBlock s) = some (s ++ List.replicate (base64Fill s) 0)

/-- An ed25519 key pair: every message has a signature, of 64 bytes, and the public key accepts exactly
the signatures made with the private one. -/
structure KeyPair (C : Crypto) (key : C.PrivateKey) (pub : C.PublicKey) : Prop where
  signs : ∀ msg, ∃ sig, C.digestSign key msg = some sig ∧ sig.length = 64
  init : C.verifyInit pub = true
  accepts : ∀ buf len msg,
    C.digestVerify pub buf len msg = true ↔ C.digestSign key msg = some (buf.take len)

structure KeyFiles (C : Crypto) (fs : FS) (journal_path key_path pubkey_path : Path) : Prop where
  key_ne : key_path ≠ journal_path
  pub_ne : pubkey_path ≠ journal_path
  pair : ∃ pem key pem' pub, fs key_path = some pem ∧ C.readPrivateKey pem = some key ∧
    fs pubkey_path = some pem' ∧ C.readPublicKey pem' = some pub ∧ KeyPair C key pub

def Session.text (s : Session) : Bytes :=
  match s.j.f with
  | some f => (f.full s.w.fs).getD []
  | none => (s.w.fs s.j.path).getD []

/-- The journal is one file, which the writer's stream appends to, and its size is within `off_t` when
the last two records are appended. -/
structure SingleFile (s : Session) : Prop where
  rotates : s.j.rotates = false
  stream : ∀ f ∈ s.j.f, f.path = s.j.path ∧ (s.w.fs s.j.path).isSome
  size : s.text.length + 4096 < 2 ^ 63

def Session.close_line (s : Session) (closed_at : Int64) : Bytes :=
  journal_line closed_at daemon_id 0 s.j.prev_hash (some journal_closed_record)

structure ClosesOnHead (s : Session) (closed_at : Int64) : Prop where
  linked : Linked (Carries seeText) lineLink 0 (journal_chunks (s.text ++ s.close_line closed_at))
  head : headOf lineLink 0 (journal_chunks (s.text ++ s.close_line closed_at)) =
    retraced_journal_line_hash (s.close_line closed_at) s.j.prev_hash

/-- The signature in the last line with the name of a seal is one for the head of the chain in front of
the final line and the number of lines there. -/
def SealValid (C : Crypto) (pub : C.PublicKey) (content : Bytes) : Prop :=
  ∃ line sig sig_len,
    (((journal_chunks content).map cstr).filter fun l => (strstr l seal_marker).isSome).getLast? =
      some line ∧
    pull_b64 C line = some (sig, sig_len) ∧
    C.digestVerify pub sig sig_len
      (bytes "head=" ++ fmtHex16 (headOf lineLink 0 (journal_chunks content).dropLast) ++
        bytes " lines=" ++ fmtNat ((journal_chunks content).length - 1)) = true

end Retrace.Retraced
