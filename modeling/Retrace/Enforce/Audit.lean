import Retrace.Journal.Seal

/-!
# The audit trail of the enforcer

`artifact_audit.c`: every execution appends a record to a file, with a hash over the record and the hash of
the record in front of it, and possibly a signature over the same bytes. Before it appends, the enforcer
replays the whole file, and it refuses when a record does not carry its hash. A file that exists can be read,
and a write appends the whole line or nothing.
-/

namespace Retrace.Enforce

open CLib Retraced

def AUDIT_LINE_MAX : Nat := 4200

def AUDIT_SIG_B64_MAX : Nat := 128

def ENFORCE_DIGEST_HEX_MAX : Nat := 65

def HASH_MARKER : Bytes := bytes "\x7b\"hash\":\""

def SIG_MARKER : Bytes := bytes ",\"sig\":\""

variable {C : Crypto}

abbrev Build := Option (Bytes → Option (Vector UInt8 32))

def fnv1a64 (s : Bytes) (h : UInt64) : UInt64 := s.foldl (fun h c => (h ^^^ c.toUInt64) * 0x01000193) h

def hex32 (md : Vector UInt8 32) : Bytes := md.toList.flatMap fmtHex2

def enforce_audit_hash (build : Build) (prev_hex payload : Bytes) : Option Bytes :=
  match build with
  | some SHA256 =>
    if AUDIT_LINE_MAX < prev_hex.length + payload.length + 1 then none
    else (SHA256 (prev_hex ++ payload)).map hex32
  | none => some (fmtHex16 (fnv1a64 payload (fnv1a64 prev_hex 0xcbf29ce484222325)))

def loaded {K : Type} (build : Build) (key : Option K) : Option K := if build.isSome then key else none

def digest_alg (build : Build) : Bytes := if build.isSome then bytes "sha256" else bytes "fnv1a64"

/-- `audit_sign`. The text of an ed25519 signature fits the buffer. -/
def audit_sign (key : C.PrivateKey) (prev_hex payload : Bytes) : Option Bytes :=
  if AUDIT_LINE_MAX < prev_hex.length + payload.length + 1 then none
  else (C.digestSign key (prev_hex ++ payload)).map C.encodeBlock

def audit_verify_sig (key : C.PublicKey) (prev_hex payload b64 : Bytes) : Bool :=
  let blen := b64.length
  if AUDIT_LINE_MAX < prev_hex.length + payload.length + 1 then false
  else if blen = 0 ∨ blen % 4 ≠ 0 ∨ AUDIT_SIG_B64_MAX ≤ blen then false
  else
    match C.decodeBlock b64 with
    | none => false
    | some sig =>
      let declen := sig.length - base64_pad b64
      if C.encodeBlock (sig.take declen) ≠ b64 then false
      else C.verifyInit key && C.digestVerify key sig declen (prev_hex ++ payload)

def jesc_char (c : UInt8) : Bytes :=
  if c = dquote ∨ c = backslash then [backslash, c]
  else if c < 32 then bytes "\\u" ++ hexFixed 4 c.toNat
  else [c]

def jesc_loop (cap : Nat) : Bytes → Bytes → Option Bytes
  | dst, [] => some (dst ++ [dquote])
  | dst, c :: s => if cap ≤ dst.length + 7 then none else jesc_loop cap (dst ++ jesc_char c) s

def jesc (cap : Nat) (s : Bytes) : Option Bytes := if cap < 3 then none else jesc_loop cap [dquote] s

def strncat (cap : Nat) (dst src : Bytes) : Bytes := dst ++ src.take (cap - dst.length - 1)

def argv_loop : Bytes → List Bytes → Option Bytes
  | av, [] => some av
  | av, arg :: args =>
    match jesc 512 (cstr arg) with
    | none => none
    | some one =>
      let av := if av ≠ [] then strncat 1024 av [comma] else av
      argv_loop (strncat 1024 av one) args

/-- One call of `enforce_audit_append`, with the keys that are loaded then and with whether the file can be
opened and written. -/
structure Call (C : Crypto) where
  ts : Int
  pid : Int
  digest : Bytes
  alg : Option Bytes
  backends : Option Bytes
  argv : Option (List Bytes)
  g_sign_key : Option C.PrivateKey
  g_verify_key : Option C.PublicKey
  opens : Bool
  writes : Bool

def audit_payload (build : Build) (c : Call C) : Option Bytes :=
  match argv_loop [] (c.argv.getD []) with
  | none => none
  | some av =>
    let payload := bytes "\x7b\"ts\":" ++ fmtInt c.ts ++ bytes ",\"pid\":" ++ fmtInt c.pid ++
      bytes ",\"digest\":\"" ++ cstr c.digest ++ bytes "\",\"alg\":\"" ++ cstr (c.alg.getD (digest_alg build)) ++
      bytes "\",\"backends\":\"" ++ cstr (c.backends.getD []) ++ bytes "\",\"argv\":[" ++ av ++ bytes "]\x7d"
    if 2048 ≤ payload.length then none else some payload

def audit_tail (build : Build) (key : Option C.PrivateKey) (prev payload hash : Bytes) : Option Bytes :=
  match loaded build key with
  | some key =>
    (audit_sign key prev payload).map fun sig =>
      HASH_MARKER ++ hash ++ bytes "\"" ++ SIG_MARKER ++ cstr sig ++ bytes "\"\x7d\n"
  | none => some (HASH_MARKER ++ hash ++ bytes "\"\x7d\n")

def audit_record (build : Build) (prev : Bytes) (c : Call C) : Option (Bytes × Bytes) := do
  let payload ← audit_payload build c
  let hash ← enforce_audit_hash build prev payload
  let tail ← audit_tail build c.g_sign_key prev payload hash
  if AUDIT_LINE_MAX ≤ (payload ++ tail).length then none else some (payload ++ tail, hash)

def extract (marker : Bytes) (cap : Nat) (line : Bytes) : Bytes :=
  match strstr line marker with
  | none => []
  | some h => ((h.drop marker.length).takeWhile (· ≠ dquote)).take (cap - 1)

def extract_hash (line : Bytes) : Bytes := extract HASH_MARKER ENFORCE_DIGEST_HEX_MAX line

def extract_sig (line : Bytes) : Bytes := extract SIG_MARKER AUDIT_SIG_B64_MAX line

/-- One round of `verify_chain`: the hash of a line that is right. -/
def verify_line (build : Build) (key : Option C.PublicKey) (prev line : Bytes) : Option Bytes :=
  if line.getLast? ≠ some newline then none
  else
    match strstr line HASH_MARKER with
    | none => none
    | some hp =>
      let payload := line.take (line.length - hp.length)
      let stored := extract_hash line
      if payload = [] ∨ stored = [] ∨ enforce_audit_hash build prev payload ≠ some stored then none
      else
        match loaded build key with
        | some key =>
          if extract_sig line = [] ∨ audit_verify_sig key prev payload (extract_sig line) = false then none
          else some stored
        | none => some stored

def verify_loop (build : Build) (key : Option C.PublicKey) : Bytes → Nat → List Bytes → Option (Nat × Bytes)
  | prev, count, [] => some (count, prev)
  | prev, count, line :: lines =>
    match verify_line build key prev (cstr line) with
    | none => none
    | some stored => verify_loop build key stored (count + 1) lines

/-- `verify_chain`: the number of records and the last hash; `none` is the return value -2. -/
def verify_chain (build : Build) (key : Option C.PublicKey) : Option Bytes → Option (Nat × Bytes)
  | none => some (0, [])
  | some content => verify_loop build key (bytes "0") 0 (fgetsAll AUDIT_LINE_MAX content)

def enforce_audit_verify (build : Build) (key : Option C.PublicKey) (file : Option Bytes) : Option (Nat × Bytes) :=
  verify_chain build key file

/-- How an append ends: with the return value 0, or with -1 because the trail does not verify or for another
reason. -/
inductive Outcome where
  | appended (hash : Bytes)
  | tampered
  | failed
  deriving DecidableEq, Repr

def Outcome.hash? : Outcome → Option Bytes
  | .appended hash => some hash
  | .tampered | .failed => none

/-- `enforce_audit_append` on the file: what it leaves and how it ends. -/
def enforce_audit_append (build : Build) (file : Option Bytes) (c : Call C) : Option Bytes × Outcome :=
  match verify_chain build c.g_verify_key file with
  | none => (file, .tampered)
  | some (_, tail) =>
    let prev := if tail ≠ [] then tail else bytes "0"
    match audit_record build prev c with
    | none => (file, .failed)
    | some (line, hash) =>
      if c.opens then
        let content := file.getD []
        if c.writes then (some (content ++ line), .appended hash) else (some content, .failed)
      else (file, .failed)

structure Trail where
  file : Option Bytes
  outcomes : List Outcome

def Trail.step (build : Build) (t : Trail) (c : Call C) : Trail :=
  let r := enforce_audit_append build t.file c
  ⟨r.1, t.outcomes ++ [r.2]⟩

structure Call.Clean (c : Call C) : Prop where
  digest : dquote ∉ c.digest ∧ newline ∉ c.digest
  alg : ∀ s ∈ c.alg, dquote ∉ s ∧ newline ∉ s
  backends : ∀ s ∈ c.backends, dquote ∉ s ∧ newline ∉ s

def Paired (sign : Option C.PrivateKey) (verify : Option C.PublicKey) : Prop :=
  ∀ pub ∈ verify, ∃ key ∈ sign, KeyPair C key pub

end Retrace.Enforce
