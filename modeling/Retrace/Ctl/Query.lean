import Retrace.Journal.Evidence

/-!
# The controller's readers of a journal

`journal_query.c` and the `verify-journal` command of `retrace-ctl`: both walk the segments that are left
of a series, each from the link its own first line declares, or the one file of a journal without
rotation.
-/

namespace Retrace.Ctl

open CLib Parson HashChain Retraced

/-- `segment_genesis_prev`: the link that the first line of a file declares. -/
def segment_genesis_prev (fs : FS) (path : Path) : UInt64 :=
  match (fs path).bind fun content => (journal_chunks content).head? with
  | none => 0
  | some chunk =>
    match strstr (cstr chunk) prev_marker with
    | none => 0
    | some p => strtoull16 (p.drop 8)

abbrev Filter := (outer ev : Option JsonObject) → Bool

def record_matches (ast : Option Filter) (v : JsonValue) : Bool :=
  match ast with
  | none => true
  | some eval =>
    let outer := json_value_get_object v
    eval outer (json_object_get_object outer (bytes "ev"))

structure QueryResult where
  /-- The return value: the number of records emitted, or -1. -/
  ret : Int
  sunk : List Bytes
  deriving DecidableEq

/-- The loop of `journal_query_file`: the lines handed to the sink, and whether the chain held. -/
def query_loop (ast : Option Filter) : List Bytes → UInt64 → List Bytes × Bool
  | [], _ => ([], true)
  | chunk :: rest, prev =>
    let line := cstr chunk
    if line.getLast? ≠ some newline then ([], true)
    else
      match json_parse_string line with
      | none => ([], true)
      | some v =>
        match json_object_get_string (json_value_get_object v) (bytes "prev") with
        | none => ([], false)
        | some prev_str =>
          if strtoull16 prev_str ≠ prev then ([], false)
          else
            let (sunk, ok) := query_loop ast rest (retraced_journal_line_hash line prev)
            (if record_matches ast v then line :: sunk else sunk, ok)

def journal_query_file (fs : FS) (path : Path) (ast : Option Filter) (start_prev : UInt64) : QueryResult :=
  match fs path with
  | none => ⟨-1, []⟩
  | some content =>
    let (sunk, ok) := query_loop ast (journal_chunks content) start_prev
    ⟨if ok then sunk.length else -1, sunk⟩

def query_segments (fs : FS) (base : Bytes) (ast : Option Filter) : List Nat → QueryResult
  | [] => ⟨0, []⟩
  | seq :: seqs =>
    let p := segment_file base seq
    let first := journal_query_file fs p ast (segment_genesis_prev fs p)
    if first.ret < 0 then ⟨-1, first.sunk⟩
    else
      let rest := query_segments fs base ast seqs
      ⟨if rest.ret < 0 then -1 else first.ret + rest.ret, first.sunk ++ rest.sunk⟩

def retraced_journal_query (fs : FS) (base : Bytes) (ast : Option Filter) : QueryResult :=
  match retraced_journal_segment_range fs base with
  | some (lo, hi) => query_segments fs base ast (List.range' lo (hi + 1 - lo))
  | none => if (fs base).isSome then journal_query_file fs base ast 0 else ⟨0, []⟩

abbrev Evidence := Option Bytes × UInt64

def queried (fs : FS) (base : Bytes) : List Evidence :=
  match retraced_journal_segment_range fs base with
  | some (lo, hi) => (List.range' lo (hi + 1 - lo)).map fun seq =>
      (fs (segment_file base seq), segment_genesis_prev fs (segment_file base seq))
  | none => if (fs base).isSome then [(fs base, 0)] else []

/-- The query refuses broken evidence: a count means that the complete lines of all files are one
verified chain, and a refusal that nothing was emitted. -/
structure Refuses (fs : FS) (base : Bytes) (ast : Option Filter) : Prop where
  verified : 0 ≤ (retraced_journal_query fs base ast).ret →
    ∃ h, Linked VerifiedLine lineLink h ((queried fs base).flatMap fun f => completeLines (f.1.getD []))
  silent : (retraced_journal_query fs base ast).ret = -1 → (retraced_journal_query fs base ast).sunk = []

def Internally (f : Evidence) : Prop :=
  ∃ content, f.1 = some content ∧ Linked (Carries seeRecord) lineLink f.2 (readableLines content)

def Contiguous : UInt64 → List Evidence → Prop
  | _, [] => True
  | h, f :: files =>
    (readableLines (f.1.getD []) ≠ [] → f.2 = h) ∧
      Contiguous (headOf lineLink h (readableLines (f.1.getD []))) files

def chainBegin (f : Evidence) : List Bytes :=
  (walk seeRecord lineLink f.2 (journal_chunks (f.1.getD []))).accepted

def passes (f : Evidence) : Bool :=
  f.1.isSome &&
    ((walk seeRecord lineLink f.2 (journal_chunks (f.1.getD []))).exit = .eof ||
      (walk seeRecord lineLink f.2 (journal_chunks (f.1.getD []))).exit = .stopped)

def frontLines : List Evidence → List Bytes
  | [] => []
  | f :: files => chainBegin f ++ if passes f then frontLines files else []

def lineMatches (ast : Option Filter) (l : Bytes) : Bool :=
  match json_parse_string l with
  | none => false
  | some v => record_matches ast v

/-- The files join up when each of them holds by itself, with nothing complete behind what can be read;
otherwise no line in front of the first broken one matches. -/
structure Joined (fs : FS) (base : Bytes) (ast : Option Filter) : Prop where
  joined : (∀ f ∈ queried fs base, Internally f) →
    (∀ f ∈ queried fs base, newline ∉ unreadBytes (f.1.getD [])) ∧ ∃ h, Contiguous h (queried fs base)
  early : ¬ (∀ f ∈ queried fs base, Internally f) →
    ∀ l ∈ frontLines (queried fs base), lineMatches ast l = false

/-- What `verify-journal` prints. -/
inductive VerifyMessage where
  | chain_broken (path : Path) (line : Nat)
  | chain_ok (path : Path) (lines : Nat) (head : UInt64)
  | pruned_predecessor (path : Path) (lines : Nat)
  | genesis_mismatch (path : Path)
  | segments_verified (n : Nat)
  | no_journal (file : Path)
  /-- The verdict of `retraced_journal_verify_file`. -/
  | verdict (v : SealVerdict)
  deriving DecidableEq

def VerifyMessage.text : VerifyMessage → Bytes
  | .chain_broken path line =>
    bytes "retrace-ctl: " ++ path ++ bytes ": chain broken at line " ++ fmtNat line ++ bytes "\n"
  | .chain_ok path lines head =>
    path ++ bytes ": chain ok, " ++ fmtNat lines ++ bytes " lines, head " ++ fmtHex16 head ++ bytes "\n"
  | .pruned_predecessor path lines =>
    path ++ bytes ": chain ok, " ++ fmtNat lines ++ bytes " lines (pruned predecessor)\n"
  | .genesis_mismatch path => bytes "retrace-ctl: " ++ path ++ bytes ": genesis link mismatch (corruption)\n"
  | .segments_verified n => fmtNat n ++ bytes " segments verified\n"
  | .no_journal file => bytes "retrace-ctl: no journal at " ++ file ++ bytes "\n"
  | .verdict v => (if v.ok then [] else bytes "retrace-ctl: ") ++ v.text ++ bytes "\n"

structure Verified where
  rc : Int
  out : List VerifyMessage

def verify_one (C : Crypto) (fs : FS) (path : Path) (pubkey_path : Option Path) : Verified :=
  match pubkey_path with
  | none =>
    let chain := retraced_journal_chain_file fs path 0
    if chain.ret ≠ 0 then ⟨1, [.chain_broken path chain.broken_at]⟩
    else ⟨0, [.chain_ok path chain.lines_out chain.head_out]⟩
  | some pubkey =>
    let v := retraced_journal_verify_file C fs path pubkey
    ⟨if v.ok then 0 else 1, [.verdict v]⟩

/-- The variables of `cmd_verify_journal`. -/
structure VerifyState where
  rc : Int := 0
  carry : Option UInt64 := none
  segments : Nat := 0
  out : List VerifyMessage := []

def verify_segment (fs : FS) (file : Path) (lo seq : Nat) (s : VerifyState) : VerifyState :=
  let p := segment_file file seq
  if (fs p).isNone then s
  else
    let declared := segment_genesis_prev fs p
    let chain := retraced_journal_chain_file_from fs p declared 0
    let broken := if chain.ret ≠ 0 then [VerifyMessage.chain_broken p chain.broken_at] else []
    let mismatch := s.carry.any (· ≠ declared)
    let link :=
      if mismatch then
        if seq = lo then VerifyMessage.pruned_predecessor p chain.lines_out else .genesis_mismatch p
      else .chain_ok p chain.lines_out chain.head_out
    { rc := if chain.ret ≠ 0 ∨ (mismatch = true ∧ seq ≠ lo) then 1 else s.rc
      carry := some chain.head_out
      segments := s.segments + 1
      out := s.out ++ broken ++ [link] }

def cmd_verify_journal (C : Crypto) (fs : FS) (file : Path) (pubkey_path : Option Path) : Verified :=
  match retraced_journal_segment_range fs file with
  | some (lo, hi) =>
    let s := (List.range' lo (hi + 1 - lo)).foldl (fun s seq => verify_segment fs file lo seq s) {}
    let out := s.out ++ if 1 < s.segments then [.segments_verified s.segments] else []
    if s.segments = 0 then ⟨1, out ++ [.no_journal file]⟩ else ⟨s.rc, out⟩
  | none =>
    if (fs file).isSome then verify_one C fs file pubkey_path else ⟨1, [.no_journal file]⟩

def surviving (fs : FS) (file : Path) : List Bytes :=
  match retraced_journal_segment_range fs file with
  | some (lo, hi) => (List.range' lo (hi + 1 - lo)).filterMap fun seq => fs (segment_file file seq)
  | none => (fs file).toList

def MeansSealed (C : Crypto) (fs : FS) (file pubkey : Path) : Prop :=
  (cmd_verify_journal C fs file (some pubkey)).rc = 0 →
    (∃ h, Linked (Carries seeText) lineLink h ((surviving fs file).flatMap journal_chunks)) ∧
      ∃ n, .verdict (.verified n) ∈ (cmd_verify_journal C fs file (some pubkey)).out

/-- The segments that are left, from the one behind the head `carry` on, are one chain: each starts with
the link it declares, which is the head of the one before it. -/
def SeriesChain (fs : FS) (file : Path) : Option UInt64 → List Nat → Prop
  | _, [] => True
  | carry, seq :: seqs =>
    match fs (segment_file file seq) with
    | none => SeriesChain fs file carry seqs
    | some content =>
      (∀ h ∈ carry, h = segment_genesis_prev fs (segment_file file seq)) ∧
        Linked (Carries seeText) lineLink (segment_genesis_prev fs (segment_file file seq))
          (journal_chunks content) ∧
        SeriesChain fs file (some (headOf lineLink
          (segment_genesis_prev fs (segment_file file seq)) (journal_chunks content))) seqs

end Retrace.Ctl
