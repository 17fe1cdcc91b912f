import Retrace.Core.ConfigCache
import Retrace.Journal.Sign

/-!
# Policies as an agent validates them

`policy_sig.c`: a policy is a JSON document with a header and scripts, or a wrapper that carries such a
document as a string with an ed25519 signature over it. The functions of the crypto library are
parameters, and so are the clock, the environment and the build.
-/

namespace Retrace.Supervisor

open CLib Parson Retraced

def POLICY_KEYS_MAX : Nat := 8

def SIG_B64_MAX : Nat := 128

structure World where
  /-- `time(NULL)`. -/
  now : Int64
  /-- `RETRACE_SUPERVISOR_PUBKEY`. -/
  pubkey : Option Bytes
  /-- The build has the crypto library (`RETRACE_HAVE_OPENSSL`). -/
  openssl : Bool
  fs : FS

/-- The pinned keys: `g_pinned` and `g_keys`. -/
structure SigState (C : Crypto) where
  g_pinned : Bool := false
  g_keys : List C.PublicKey := []

inductive Refusal where
  | null_payload
  | malformed_json
  | partial_wrapper
  | unsupported_signature
  | signature_invalid
  | cannot_verify
  | no_policy_header
  | epoch_missing
  | epoch_regression
  | policy_expired
  | no_scripts
  | cache_rebuild
  deriving DecidableEq, Repr

def Refusal.text : Refusal → Bytes
  | .null_payload => bytes "null payload"
  | .malformed_json => bytes "malformed json"
  | .partial_wrapper => bytes "partial signature wrapper"
  | .unsupported_signature => bytes "unsupported signature"
  | .signature_invalid => bytes "signature invalid"
  | .cannot_verify => bytes "build cannot verify signatures"
  | .no_policy_header => bytes "no policy header"
  | .epoch_missing => bytes "policy.epoch missing"
  | .epoch_regression => bytes "epoch regression refused"
  | .policy_expired => bytes "policy expired"
  | .no_scripts => bytes "no intercept_scripts"
  | .cache_rebuild => bytes "cache rebuild failed"

variable (C : Crypto)

/-- The loop of `load_pubkey` that turns the escapes of an inline key into newlines, as long as there
is room. -/
def unescape_newlines : Nat → Bytes → Bytes
  | 0, _ => []
  | _ + 1, [] => []
  | room + 1, [c] => c :: unescape_newlines room []
  | room + 1, c :: d :: s =>
    if c = backslash ∧ d = 110 then newline :: unescape_newlines room s
    else c :: unescape_newlines room (d :: s)

def load_pubkey (fs : FS) (spec : Bytes) : Option C.PublicKey :=
  match fs spec with
  | some pem => C.readPublicKey pem
  | none => C.readPublicKey (unescape_newlines 4095 spec)

/-- `verify_b64` with the key `key`. The block decoder turns the padding into NULs, which do not
count. -/
def verify_b64 (key : C.PublicKey) (sig_b64 msg : Bytes) : Bool :=
  let blen := sig_b64.length
  if blen = 0 ∨ blen % 4 ≠ 0 ∨ SIG_B64_MAX + 8 ≤ blen then false
  else
    let pad := ((sig_b64.reverse.take 2).takeWhile (· = 61)).length
    match C.decodeBlock sig_b64 with
    | none => false
    | some raw => C.verifyInit key && C.digestVerify key raw (raw.length - pad) msg

def retrace_policy_sig_init (w : World) (st : SigState C) : SigState C :=
  if st.g_pinned then st
  else if w.openssl then
    match w.pubkey with
    | none => st
    | some spec =>
      -- the specs between colons; `strtok` skips empty ones
      let tokens := ((snprintf 2048 spec).splitOn 58).filter (· ≠ [])
      let keys := (tokens.filterMap (load_pubkey C w.fs)).take (POLICY_KEYS_MAX - st.g_keys.length)
      if keys = [] then st else { g_pinned := true, g_keys := st.g_keys ++ keys }
  else { st with g_pinned := w.pubkey.isSome }

def copy_str_field (o : JsonObject) (key : Bytes) (cap : Nat) : Bytes :=
  snprintf cap ((json_object_get_string (some o) key).getD [])

/-- `retrace_policy_sig_check` with room for `blob_cap` bytes: the document to apply. -/
def retrace_policy_sig_check (w : World) (st : SigState C) (payload : Bytes) (blob_cap : Nat) :
    Except Refusal Bytes :=
  match json_parse_string payload with
  | none => .error .malformed_json
  | some v =>
    let root := json_value_get_object v
    match json_object_get_object root (bytes "sig"), json_object_get_string root (bytes "blob") with
    | none, none => .ok (snprintf blob_cap payload)
    | some sig, some blob =>
      if w.openssl then
        let alg := copy_str_field sig (bytes "alg") 32
        let sig_b64 := copy_str_field sig (bytes "sig") SIG_B64_MAX
        if alg ≠ bytes "ed25519" ∨ sig_b64 = [] then .error .unsupported_signature
        else if !st.g_pinned then .ok (snprintf blob_cap blob)
        else if st.g_keys.any fun key => verify_b64 C key sig_b64 blob then .ok (snprintf blob_cap blob)
        else .error .signature_invalid
      else .error .cannot_verify
    | _, _ => .error .partial_wrapper

inductive Validation where
  /-- 0: the document can be installed. -/
  | ok (root : JsonObject) (epoch : UInt64)
  /-- 1: the epoch is in force already. -/
  | held
  /-- -1. -/
  | refused (reason : Refusal)

def validate_document (w : World) (payload_json : Bytes) (have_epoch : UInt64) : Validation :=
  match json_parse_string payload_json with
  | none => .refused .malformed_json
  | some v =>
    match json_value_get_object v with
    | none => .refused .no_policy_header
    | some root =>
      match json_object_get_object (some root) (bytes "policy") with
      | none => .refused .no_policy_header
      | some pol =>
        let epoch := json_object_get_number (some pol) (bytes "epoch")
        let expires := json_object_get_number (some pol) (bytes "expires")
        if epoch < 1 then .refused .epoch_missing
        else if doubleToU64 epoch = have_epoch then .held
        else if doubleToU64 epoch < have_epoch then .refused .epoch_regression
        else if 0 < expires ∧ doubleToLong expires ≤ w.now then .refused .policy_expired
        else if (json_object_get_array (some root) (bytes "intercept_scripts")).isNone then
          .refused .no_scripts
        else .ok root (doubleToU64 epoch)

def retrace_policy_validate (w : World) (st : SigState C) (payload_wrapped : Option Bytes)
    (have_epoch : UInt64) : SigState C × Validation :=
  match payload_wrapped with
  | none => (st, .refused .null_payload)
  | some payload =>
    let st := retrace_policy_sig_init C w st
    match retrace_policy_sig_check C w st payload 8192 with
    | .error reason => (st, .refused reason)
    | .ok payload_json => (st, validate_document w payload_json have_epoch)

end Retrace.Supervisor
