import Retrace.Journal.Series
import Retrace.CLib.Proofs.CStringProofs

/-!
# The replay is a chain walk

The loop of `journal_replay_file` is the verifier `HashChain.walk` over the lines of the file, with
`seeRecord` as its view of a line; the other fields it computes are functions of the lines the walk
accepts.
-/

namespace Retrace.Retraced

open CLib Parson HashChain

/-- `clean_close` after a line: only a marker in the last complete line counts. -/
def cleanAfter (b : Bool) (chunk : Bytes) : Bool :=
  if (cstr chunk).getLast? = some newline then (strstr (cstr chunk) close_marker).isSome else b

def lineObject (chunk : Bytes) : Option JsonObject :=
  (json_parse_string (cstr chunk)).bind json_value_get_object

def ReplayState.accept (s : ReplayState) (chunk : Bytes) : ReplayState where
  j := { s.j with
    clean_close := cleanAfter s.j.clean_close chunk
    replay_events := s.j.replay_events + 1 }
  r := replay_agent s.r (lineObject chunk)
  prev := lineLink chunk s.prev
  lineno := s.lineno + 1

theorem replay_loop_cons :
    replay_loop (c :: rest) s =
      let s' := { s with
        lineno := s.lineno + 1
        j := { s.j with clean_close := cleanAfter s.j.clean_close c } }
      let broken := ({ s' with j := { s'.j with chain_broken_at := toInt32 (s.lineno + 1) } },
        ReplayExit.broken)
      match seeRecord c with
      | .stop => (s', .torn)
      | .missing => broken
      | .link v => if v = s.prev then replay_loop rest (s.accept c) else broken := by
  by_cases hnl : (cstr c).getLast? = some newline
  · cases hv : json_parse_string (cstr c) with
    | none => simp [replay_loop, seeRecord, hnl, hv, cleanAfter]
    | some v =>
      cases hp : json_object_get_string (json_value_get_object v) (bytes "prev") <;>
        simp [replay_loop, seeRecord, hnl, hv, hp, ReplayState.accept, cleanAfter, lineObject, lineLink, ite_not]
  · simp [replay_loop, seeRecord, hnl, cleanAfter]

def replayExit : Exit → ReplayExit
  | .eof => .eof
  | .stopped => .torn
  | .missing => .broken
  | .mismatch => .broken

def Journal.walked (j : Journal) (chunks : List Bytes) (W : Walk UInt64 Bytes) (lineno : Nat) : Journal :=
  { j with
    replay_events := j.replay_events + W.accepted.length
    clean_close := (chunks.take (W.accepted.length + 1)).foldl cleanAfter j.clean_close
    chain_broken_at :=
      if replayExit W.exit = .broken then toInt32 (lineno + W.accepted.length + 1)
      else j.chain_broken_at }

def replay_line (r : Registry) (l : Bytes) : Registry := replay_agent r (lineObject l)

theorem replay_loop_spec (chunks : List Bytes) (s : ReplayState) :
    replay_loop chunks s =
      ({ j := s.j.walked chunks (walk seeRecord lineLink s.prev chunks) s.lineno
         r := (walk seeRecord lineLink s.prev chunks).accepted.foldl replay_line s.r
         prev := (walk seeRecord lineLink s.prev chunks).head
         lineno := s.lineno + (walk seeRecord lineLink s.prev chunks).accepted.length +
           (if (walk seeRecord lineLink s.prev chunks).exit = .eof then 0 else 1) },
        replayExit (walk seeRecord lineLink s.prev chunks).exit) := by
  induction chunks generalizing s with
  | nil => simp [replay_loop, Journal.walked, replayExit]
  | cons c rest ih =>
    cases hc : seeRecord c with
    | stop =>
      rw [replay_loop_cons, hc, walk_cons_stop hc]
      simp [Journal.walked, replayExit]
    | missing =>
      rw [replay_loop_cons, hc, walk_cons_missing hc]
      simp [Journal.walked, replayExit]
    | link v =>
      by_cases hv : v = s.prev
      · subst hv
        simp only [replay_loop_cons, hc, if_true, walk_cons_carries hc, ih (s.accept c)]
        have hprev : (s.accept c).prev = lineLink c s.prev := rfl
        rw [hprev]
        generalize walk seeRecord lineLink (lineLink c s.prev) rest = W
        simp [Journal.walked, ReplayState.accept, replay_line, Nat.add_comm, Nat.add_left_comm]
      · simp only [replay_loop_cons, hc, if_neg hv, walk_cons_mismatch hc hv]
        simp [Journal.walked, replayExit]

section

variable {fs : FS} (hc : fs path = some content) (j : Journal)
  (r : Registry) (prev : UInt64) (last : Bool)
include hc

theorem journal_replay_file_ok
    (hex : replayExit (walk seeRecord lineLink prev (journal_chunks content)).exit ≠ .broken) :
    journal_replay_file fs j r path prev last =
      ((walk seeRecord lineLink prev (journal_chunks content)).head,
        { j.walked (journal_chunks content) (walk seeRecord lineLink prev (journal_chunks content)) 0 with
          replay_ok := j.replay_ok +
            (walk seeRecord lineLink prev (journal_chunks content)).accepted.length
          lines := if last then UInt64.ofNat
              (walk seeRecord lineLink prev (journal_chunks content)).accepted.length
            else j.lines },
        (walk seeRecord lineLink prev (journal_chunks content)).accepted.foldl replay_line r) := by
  have hloop := replay_loop_spec (journal_chunks content) { j := j, r := r, prev := prev }
  simp only at hloop
  simp only [journal_replay_file, hc, hloop, if_neg hex]
  generalize walk seeRecord lineLink prev (journal_chunks content) = W at hex
  -- The number of lines counted is that of the accepted ones, torn line or not.
  have hn : (0 + W.accepted.length + if W.exit = .eof then 0 else 1) -
      (if replayExit W.exit = .torn then 1 else 0) = W.accepted.length := by
    cases hW : W.exit <;> simp [hW, replayExit] at hex ⊢
  rw [hn]
  cases last <;> simp [Journal.walked]

theorem journal_replay_file_broken
    (hex : replayExit (walk seeRecord lineLink prev (journal_chunks content)).exit = .broken) :
    ∃ r', journal_replay_file fs j r path prev last = (broken_head,
        j.walked (journal_chunks content) (walk seeRecord lineLink prev (journal_chunks content)) 0, r') := by
  have hloop := replay_loop_spec (journal_chunks content) { j := j, r := r, prev := prev }
  simp only at hloop
  refine ⟨(walk seeRecord lineLink prev (journal_chunks content)).accepted.foldl replay_line r, ?_⟩
  simp only [journal_replay_file, hc, hloop, if_pos hex]

end

end Retrace.Retraced
