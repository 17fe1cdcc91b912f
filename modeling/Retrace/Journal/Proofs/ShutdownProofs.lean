import Retrace.Journal.Proofs.DiskProofs
import Retrace.Journal.Proofs.TamperProofs

/-!
# What the next boot makes of the end of a run

The replay calls a shutdown clean when the last complete line holds the close marker. That is the last
line of a graceful shutdown unless the close itself rotates the journal or a seal follows it; and a
crash may leave an older close marker last.
-/

namespace Retrace.Retraced

open CLib Parson HashChain Runs List

variable {lines : Nat} {fs : FS} {rot' : Rotation} {head : UInt64}

-- The text of a line and its hash are not unfolded when terms are compared.
attribute [local irreducible] retraced_journal_line_hash journal_line retraced_journal_event

def quotePieces (s : Bytes) : List Bytes := s.splitOn dquote

theorem mem_quotePieces_of_closes (h : closes s = true) : bytes "retrace.journal.closed" ∈ quotePieces s := by
  obtain ⟨a, b, rfl⟩ := strstr_isSome_iff.mp h
  have hform : a ++ close_marker ++ b =
      (a ++ bytes "\"name\":") ++ dquote :: (bytes "retrace.journal.closed" ++ dquote :: b) := by
    simp [close_marker, bytes]
  have hone : quotePieces (bytes "retrace.journal.closed") = [bytes "retrace.journal.closed"] := by
    decide
  rw [quotePieces] at *
  rw [hform, List.splitOn, splitOnP_append_cons _ _ (by simp), splitOnP_append_cons _ _ (by simp)]
  rw [List.splitOn] at hone
  simp [hone]

theorem closes_eq_false_of_pieces (ps : List Bytes) (hs : s = [dquote].intercalate ps)
    (hps : ∀ p ∈ ps, dquote ∉ p) (hne : ps ≠ []) (hno : bytes "retrace.journal.closed" ∉ ps) :
    closes s = false := by
  rw [Bool.eq_false_iff]
  intro h
  have hmem := mem_quotePieces_of_closes h
  rw [hs, quotePieces, splitOn_intercalate _ hps hne] at hmem
  exact hno hmem

theorem fmtHex16_ne (hw : w.length ≠ 16) (h : UInt64) : fmtHex16 h ≠ w :=
  fun heq => hw (heq ▸ fmtHex16_length h)

theorem fmtHex16_ne_closed (h : UInt64) : bytes "retrace.journal.closed" ≠ fmtHex16 h :=
  (fmtHex16_ne (by decide) h).symm

theorem closes_segment_opened (ho : Plain opened) (hc : Plain closed)
    (hone : bytes "retrace.journal.closed" ≠ opened)
    (hcne : bytes "retrace.journal.closed" ≠ closed)
      (hlen : (segment_opened_text opened closed head).length < 512) :
    closes (journal_line ts daemon_id 0 h
      (some (snprintf 512 (segment_opened_text opened closed head)))) = false := by
  obtain ⟨-, hin⟩ := payloadOk_segment_opened ho hc hlen _ rfl
  refine closes_eq_false_of_pieces
    [bytes "\x7b", bytes "ts", bytes ":" ++ fmtInt ts.toInt ++ bytes ",", bytes "agent", bytes ":",
      bytes "daemon", bytes ",", bytes "seq", bytes ":0,", bytes "prev", bytes ":", fmtHex16 h,
      bytes ",", bytes "ev", bytes ":\x7b", bytes "name", bytes ":",
      bytes "retrace.journal.segment_opened", bytes ",", bytes "segment", bytes ":", opened, bytes ",",
      bytes "prev_segment", bytes ":", closed, bytes ",", bytes "prev_head", bytes ":", fmtHex16 head,
      bytes "\x7d\x7d\n"] ?_ ?_ (by simp) ?_
  · have hid : cstr daemon_id = bytes "daemon" := rfl
    have hzero : fmtNat 0 = bytes "0" := rfl
    rw [journal_line, Option.getD_some, hin.cstr, snprintf_eq_self hlen]
    simp [segment_opened_text, ho.cstr, hc.cstr, hid, hzero, bytes, List.intercalate, dquote]
  · have h1 := (fmtInt_plain ts.toInt).not_mem_dquote
    have h2 := fun x => (fmtHex16_plain x).not_mem_dquote
    have h3 := ho.not_mem_dquote
    have h4 := hc.not_mem_dquote
    simp only [dquote] at h1 h2 h3 h4
    simp [h1, h2, h3, h4, bytes, dquote]
  · have h1 := fmtHex16_ne_closed h
    have h2 := fmtHex16_ne_closed head
    simp only [bytes] at h1 h2 hone hcne
    simp at h1 h2 hone hcne
    simp [h1, h2, hone, hcne, bytes]

theorem isBase64_iff : isBase64 c = true ↔
    (65 ≤ c.toNat ∧ c.toNat ≤ 90) ∨ (97 ≤ c.toNat ∧ c.toNat ≤ 122) ∨ (48 ≤ c.toNat ∧ c.toNat ≤ 57) ∨
      c.toNat = 43 ∨ c.toNat = 47 ∨ c.toNat = 61 := by
  simp [isBase64, UInt8.le_iff_toNat_le, ← UInt8.toNat_inj, or_assoc]

section

variable (hC : EncodesBase64 C) (sig : Bytes)
include hC

theorem encodeBlock_plain : Plain (C.encodeBlock sig) := by
  intro c hc
  have h := isBase64_iff.mp (hC sig c hc)
  simp only [plainChar, ne_eq, Bool.and_eq_true, decide_eq_true_eq, UInt8.le_iff_toNat_le,
    ← UInt8.toNat_inj, UInt8.reduceToNat]
  have hq : dquote.toNat = 34 := rfl
  have hb : backslash.toNat = 92 := rfl
  omega

theorem encodeBlock_ne_closed : bytes "retrace.journal.closed" ≠ C.encodeBlock sig := by
  intro heq
  have h := hC sig 46 (by rw [← heq]; decide)
  exact absurd h (by decide)

omit hC in
theorem fmtHex2_plain (b : UInt8) : Plain (fmtHex2 b) := by
  intro c hc
  obtain ⟨d, hd, rfl⟩ := mem_hexFixed hc
  exact (hexDigit_spec d hd).2.2.1

theorem payloadOk_seal (hlines : lines < 2 ^ 64) (hlen : (seal_text C sig head lines).length < 512) :
    PayloadOk (some (seal_text C sig head lines)) := by
  have henc := encodeBlock_plain hC sig
  have h : PayloadOk (some (snprintf 512 (seal_text C sig head lines))) := by
    have hkey : Plain (fmtHex2 (sig.getD 0 0) ++ fmtHex2 (sig.getD 1 0)) :=
      (plain_append _ _).mpr ⟨fmtHex2_plain _, fmtHex2_plain _⟩
    refine payloadOk_of_scalars
      [bytes "name", bytes "alg", bytes "key_id", bytes "head", bytes "lines", bytes "sig"]
      [quoted (bytes "retrace.journal.signed"), quoted (bytes "ed25519"),
        quoted (fmtHex2 (sig.getD 0 0) ++ fmtHex2 (sig.getD 1 0)), quoted (fmtHex16 head), fmtNat lines,
        quoted (C.encodeBlock sig)] hlen (by decide) ?_ rfl ?_
    · simpa using ⟨.string (by decide), .string (by decide), .string hkey, .string (fmtHex16_plain _), .nat hlines,
        .string henc⟩
    · simp [seal_text, henc.cstr, renderObject, renderMembers, renderMember, quoted, bytes]
  rwa [snprintf_eq_self hlen] at h

theorem closes_seal (hlines : lines < 2 ^ 64) (hlen : (seal_text C sig head lines).length < 512) :
    closes (journal_line ts daemon_id 0 h (some (seal_text C sig head lines))) = false := by
  obtain ⟨-, hin⟩ := payloadOk_seal hC sig hlines hlen _ rfl
  have henc := encodeBlock_plain hC sig
  refine closes_eq_false_of_pieces
    [bytes "\x7b", bytes "ts", bytes ":" ++ fmtInt ts.toInt ++ bytes ",", bytes "agent", bytes ":",
      bytes "daemon", bytes ",", bytes "seq", bytes ":0,", bytes "prev", bytes ":", fmtHex16 h,
      bytes ",", bytes "ev", bytes ":\x7b", bytes "name", bytes ":",
      bytes "retrace.journal.signed", bytes ",", bytes "alg", bytes ":", bytes "ed25519", bytes ",",
      bytes "key_id", bytes ":", fmtHex2 (sig.getD 0 0) ++ fmtHex2 (sig.getD 1 0), bytes ",",
      bytes "head", bytes ":", fmtHex16 head, bytes ",", bytes "lines",
      bytes ":" ++ fmtNat lines ++ bytes ",", bytes "sig", bytes ":", C.encodeBlock sig,
      bytes "\x7d\x7d\n"] ?_ ?_ (by simp) ?_
  · have hid : cstr daemon_id = bytes "daemon" := rfl
    have hzero : fmtNat 0 = bytes "0" := rfl
    rw [journal_line, Option.getD_some, hin.cstr]
    simp [seal_text, henc.cstr, hid, hzero, bytes, List.intercalate, dquote]
  · have h1 := (fmtInt_plain ts.toInt).not_mem_dquote
    have h2 := fun x => (fmtHex16_plain x).not_mem_dquote
    have h3 := fun b => (fmtHex2_plain b).not_mem_dquote
    have h4 := (fmtNat_plain lines).not_mem_dquote
    have h5 := henc.not_mem_dquote
    simp only [dquote] at h1 h2 h3 h4 h5
    simp [h1, h2, h3, h4, h5, bytes, dquote]
  · have h1 := fmtHex16_ne_closed h
    have h2 := fmtHex16_ne_closed head
    have h3 : bytes "retrace.journal.closed" ≠ fmtHex2 (sig.getD 0 0) ++ fmtHex2 (sig.getD 1 0) :=
      fun heq => by simpa [bytes, fmtHex2] using congrArg List.length heq
    have h4 := encodeBlock_ne_closed hC sig
    simp only [bytes] at h1 h2 h3 h4
    simp at h1 h2 h3 h4
    simp [h1, h2, h3, h4, bytes]

end

theorem closes_journal_closed (h : UInt64) :
    closes (journal_line ts daemon_id 0 h (some journal_closed_record)) = true := by
  rw [closes, strstr_isSome_iff, journal_line]
  have hrec : close_marker <:+: cstr journal_closed_record := ⟨bytes "\x7b", bytes "\x7d", rfl⟩
  exact hrec.trans ⟨_, bytes "\x7d\n", rfl⟩

theorem segment_file_ne_closed (hb : base.length ≤ 511) (hn : n < 10000) :
    bytes "retrace.journal.closed" ≠ segment_file base n := by
  rw [segment_file_eq hb hn, append_assoc]
  intro heq
  have hsplit : bytes "retrace.journal.closed" = bytes "retrace.journal.c" ++ bytes "losed" := rfl
  rw [hsplit] at heq
  have hlen : (bytes "losed").length = (bytes "." ++ fmtNat4 n).length := by
    rw [length_append, fmtNat4_length hn]
    rfl
  have h := (append_inj' heq hlen).2
  simp [bytes] at h

theorem rotate_last : ∃ h, (journal_rotate w j ts).1.written.getLast? = some (journal_line ts daemon_id 0 h
      (some (snprintf 512 (segment_opened_text (segment_file j.base (j.segment_seq + 1))
        (segment_file j.base j.segment_seq) j.prev_hash)))) := by
  simp only [journal_rotate]
  generalize journal_retain (rotate_next w j ts).1 (rotate_next w j ts).2 ts = p
  obtain ⟨w', j'⟩ := p
  have hfit := daemon_line_fits ts j'.prev_hash (snprintf_length_lt (by norm_num) (by norm_num)
    (segment_opened_text (segment_file j.base (j.segment_seq + 1)) (segment_file j.base j.segment_seq)
      j.prev_hash) : (snprintf 512 _).length < 512)
  rcases journal_append_cases w' j' ts daemon_id 0 (some (snprintf 512 (segment_opened_text
      (segment_file j.base (j.segment_seq + 1)) (segment_file j.base j.segment_seq) j.prev_hash)))
    with ⟨-, hlong⟩ | ⟨fs', f', heq, -⟩
  · omega
  · exact ⟨j'.prev_hash, by simp [journal_append_void, heq]⟩

theorem event_last (hline : line = journal_line ts agent_id seq j.prev_hash payload) (hfit : line.length < 2048) :
    if ({ j with seg_bytes := j.seg_bytes + line.length } : Journal).due ts then
      ∃ h head, (retraced_journal_event w j ts agent_id seq payload).2.1.written.getLast? =
          some (journal_line ts daemon_id 0 h (some (snprintf 512 (segment_opened_text
            (segment_file j.base (j.segment_seq + 1)) (segment_file j.base j.segment_seq) head)))) ∧
        (retraced_journal_event w j ts agent_id seq payload).2.2.segment_seq = j.segment_seq + 1
    else (retraced_journal_event w j ts agent_id seq payload).2.1.written.getLast? = some line ∧
      (retraced_journal_event w j ts agent_id seq payload).2.2.segment_seq = j.segment_seq := by
  rcases journal_append_cases w j ts agent_id seq payload with ⟨-, hlong⟩ | ⟨fs', f', heq, -⟩
  · rw [← hline] at hlong
    omega
  · rw [← hline] at heq
    have hsame : (j.appended f' line).due ts =
        ({ j with seg_bytes := j.seg_bytes + line.length } : Journal).due ts := rfl
    rw [← hsame]
    split_ifs with hdue
    · simp only [retraced_journal_event, heq, if_pos hdue]
      obtain ⟨h, hlast⟩ := rotate_last
      exact ⟨h, _, hlast, rotate_segment_seq _ _ _⟩
    · simp only [retraced_journal_event, heq, if_neg hdue]
      simp [Journal.appended]

theorem event_told (hrep : Rep w.fs j S) (hclean : CleanBase j)
    (hline : line = journal_line ts agent_id seq j.prev_hash payload) (hfit : line.length < 2048)
    (hseq : (retraced_journal_event w j ts agent_id seq payload).2.2.segment_seq < 10000) :
    toldClean (retraced_journal_event w j ts agent_id seq payload).2.1.written.getLast? =
      (!({ j with seg_bytes := j.seg_bytes + line.length } : Journal).due ts && closes line) := by
  have hlast := event_last (w := w) hline hfit
  split_ifs at hlast with hdue
  · obtain ⟨h, head, hw, hnext⟩ := hlast
    rw [hnext] at hseq
    have hrot : j.rotates = true := by
      simp only [Journal.due, Bool.and_eq_true] at hdue
      exact hdue.1.2
    have hplain := fun n => segment_file_plain (hclean.plain hrot) n
    rw [hw, hdue]
    exact closes_segment_opened (hplain _) (hplain _) (segment_file_ne_closed hrep.base_len hseq)
      (segment_file_ne_closed hrep.base_len hrep.seq_lt)
      (hclean.markers hrot j.segment_seq head j.lines hseq).2
  · rw [hlast.1, Bool.eq_false_iff.mpr hdue]
    rfl

theorem sign_file_ok (h : retraced_journal_sign_file C fs key path cap = .ok text) :
    ∃ sig head lines, text = seal_text C sig head lines ∧ text.length < cap ∧
      lines = (retraced_journal_chain_file fs path 0).lines_out := by
  unfold retraced_journal_sign_file at h
  simp only at h
  split_ifs at h with h1
  split at h
  · cases h
  · rename_i sig _
    split_ifs at h with h2
    cases h
    exact ⟨sig, _, _, rfl, Nat.not_le.mp h2, rfl⟩

theorem seal_ok (hC : EncodesBase64 C) (hrep : Rep w.fs j S) (hkept : Kept w S) (hf : j.f = none)
    (hne : S.live ≠ []) (hfew : w.written.length < 2 ^ 64)
    (hsign : retraced_journal_sign_file C w.fs key j.path 512 = .ok text) :
    PayloadOk (some text) ∧ text.length < 512 ∧
      ∀ ts h, closes (journal_line ts daemon_id 0 h (some text)) = false := by
  obtain ⟨sig, head, lines, rfl, hlen, hlines⟩ := sign_file_ok hsign
  have hlive := hrep.live
  simp only [LiveRep, hf, hne, and_false, or_false] at hlive
  have hlt : lines < 2 ^ 64 := by
    have hle := @chain_loop_lines_out_le 0 0 0 S.live
    simp only [retraced_journal_chain_file, retraced_journal_chain_file_from, hlive,
      chunks_records S.live_linked] at hlines
    obtain ⟨gone, hw, -, -⟩ := hkept
    have hlen := congrArg List.length hw
    simp only [Series.lines, length_append] at hlen
    omega
  exact ⟨payloadOk_seal hC sig hlt hlen, hlen, fun ts h => closes_seal hC sig hlt hlen⟩

section

variable {path : Bytes} {rot : Rotation} {C : Crypto} {s : Session}

theorem holds_started (hstart : Started path rot fs S) (hclean : CleanPath path rot) :
    Holds path rot (journal_boot path ⟨fs, S.lines⟩ rot now) S := by
  cases hstart with
  | fresh h => exact holds_fresh h hclean now
  | stored hst hlo hgen hns =>
    have hb := @boot_stored ⟨fs, S.lines⟩ path S rot hst hlo hgen hns now
    generalize journal_boot path ⟨fs, S.lines⟩ rot now = s at *
    obtain ⟨hr, hrep⟩ := hb
    refine ⟨hr.configured, ?_, ?_⟩
    · rw [hr.world]
      exact hrep
    · rw [hr.world]
      exact ⟨[], rfl, hgen, fun _ => rfl⟩

theorem event_segment_seq (w : World) (j : Journal) (ts : Int64) (agent_id : Bytes) (seq : UInt64)
    (payload : Option Bytes) :
    j.segment_seq ≤ (retraced_journal_event w j ts agent_id seq payload).2.2.segment_seq ∧
      (retraced_journal_event w j ts agent_id seq payload).2.2.segment_seq ≤ j.segment_seq + 1 := by
  rcases journal_append_cases w j ts agent_id seq payload with ⟨h, -⟩ | ⟨fs', f', h, -⟩
  · simp only [retraced_journal_event, h]
    omega
  · simp only [retraced_journal_event, h]
    split_ifs
    · simp only [rotate_segment_seq, Journal.appended]
      omega
    · simp only [Journal.appended]
      omega

theorem close_segment_seq_le (C : Crypto) (s : Session) (closed_at sealed_at : Int64) (signing_key : Option Path) :
    (retraced_journal_close s.w s.j closed_at).2.segment_seq ≤
      (s.stop C (.graceful closed_at sealed_at signing_key)).2.segment_seq := by
  simp only [Session.stop]
  generalize retraced_journal_close s.w s.j closed_at = closed
  split
  · rename_i text _
    exact (event_segment_seq closed.1 closed.2 sealed_at daemon_id 0 (some text)).1
  · exact Nat.le_refl _

theorem holds_killed (hC : EncodesBase64 C) (hclean : CleanPath path rot) (h : Holds path rot s S)
    (hlast : LastWriteOk C path s (.crash stage n)) :
    ∃ S', Keeps s.w s.j S (s.killed C stage).1 (s.killed C stage).2 S' := by
  obtain ⟨hconf, hrep, hkept⟩ := h
  have hbase := hconf.cleanBase hclean
  cases stage with
  | idle => exact ⟨S, .refl hrep⟩
  | event ts agent_id seq payload p =>
    obtain ⟨ha, hp, hseq⟩ := hlast
    exact event_at_spec hrep hbase ts seq ha hp hseq p
  | sealing closed_at sealed_at signing_key p =>
    obtain ⟨hseq, hfew⟩ := hlast
    have hle := close_segment_seq_le C s closed_at sealed_at (some signing_key)
    have hseq' : (retraced_journal_close s.w s.j closed_at).2.segment_seq < 10000 := hle.trans_lt hseq
    have hspec := close_spec hrep hbase hconf.rotating hseq'
    simp only [Session.killed, Session.stop, Option.map_some] at hseq ⊢
    generalize retraced_journal_close s.w s.j closed_at = closed at *
    obtain ⟨S1, hS1, hne, hf, -⟩ := hspec
    cases hsign : retraced_journal_sign_file C closed.1.fs signing_key closed.2.path 512 with
    | error e => exact ⟨S1, hS1⟩
    | ok text =>
      simp only [hsign] at hseq ⊢
      obtain ⟨hp, -, -⟩ := seal_ok hC hS1.rep (hS1.kept hkept) hf hne hfew hsign
      obtain ⟨S2, hS2⟩ := event_at_spec hS1.rep (hS1.same.cleanBase hbase) sealed_at 0
        (by decide : Plain daemon_id) hp hseq p
      exact ⟨S2, hS1.trans hS2⟩

theorem crash_told (hC : EncodesBase64 C) (hclean : CleanPath path rot) (h : Holds path rot s S)
    (hlast : LastWriteOk C path s (.crash stage n))
      (hend : EndOk (journal_base path) (s.stop C (.crash stage n)).1)
    (hrot : rot'.enabled = rot.enabled) :
    (journal_boot path (s.stop C (.crash stage n)).1 rot' later).j.clean_close =
      toldClean (lastLine (s.stop C (.crash stage n)).1.fs (s.killed C stage).2) := by
  obtain ⟨S', hS'⟩ := holds_killed hC hclean h hlast
  obtain ⟨hconf, -, hkept⟩ := h
  simp only [Session.stop] at hend ⊢
  generalize s.killed C stage = p at *
  have hbase : p.2.base = journal_base path := hS'.same.base.trans hconf.base
  have hrotates : p.2.rotates = rot'.enabled :=
    hS'.same.rotates.trans (hconf.rotates.trans hrot.symm)
  exact @boot_clean_crashed S' path n _ rot' { s with w := p.1, j := p.2 } hS'.rep (hS'.kept hkept) hbase
    hrotates hend.start hend.links later

theorem close_segment_seq (w : World) (j : Journal) (now : Int64) :
    (retraced_journal_close w j now).2.segment_seq =
      (retraced_journal_event w j now daemon_id 0 (some journal_closed_record)).2.2.segment_seq := by
  simp only [retraced_journal_close]

theorem close_written (w : World) (j : Journal) (now : Int64) : (retraced_journal_close w j now).1.written =
      (retraced_journal_event w j now daemon_id 0 (some journal_closed_record)).2.1.written := by
  simp only [retraced_journal_close, close_stream]
  split <;> rfl

theorem close_told (hclean : CleanPath path rot) (h : Holds path rot s S)
    (hseq : (retraced_journal_close s.w s.j closed_at).2.segment_seq < 10000)
    (hend : EndOk (journal_base path) (retraced_journal_close s.w s.j closed_at).1)
    (hrot : rot'.enabled = rot.enabled) :
    (journal_boot path (retraced_journal_close s.w s.j closed_at).1 rot' later).j.clean_close =
      !s.j.close_due closed_at := by
  have hevent := close_segment_seq s.w s.j closed_at ▸ hseq
  have htold := event_told h.2.1 (h.1.cleanBase hclean) rfl
    (daemon_line_fits closed_at s.j.prev_hash (by decide : journal_closed_record.length < 512)) hevent
  rw [closes_journal_closed, Bool.and_true, ← close_written] at htold
  have hspec := holds_closed hclean h hseq
  generalize retraced_journal_close s.w s.j closed_at = closed at *
  obtain ⟨S', ⟨hconf, hrep, hkept⟩, hne, hf, -⟩ := hspec
  have hrotates : closed.2.rotates = rot'.enabled := hconf.rotates.trans hrot.symm
  rw [boot_clean_whole hrep hkept hf hne hconf.base hrotates hend.start hend.links later, htold]
  rfl

theorem seal_told (hC : EncodesBase64 C) (hclean : CleanPath path rot) (h : Holds path rot s S)
    (hf : s.j.f = none) (hne : S.live ≠ []) (hfew : s.w.written.length < 2 ^ 64)
    (hsign : retraced_journal_sign_file C s.w.fs key s.j.path 512 = .ok text)
    (hdone : done = retraced_journal_event s.w s.j sealed_at daemon_id 0 (some text))
    (hseq : done.2.2.segment_seq < 10000) (hend : EndOk (journal_base path) (close_stream done.2.1 done.2.2))
    (hrot : rot'.enabled = rot.enabled) :
    (journal_boot path (close_stream done.2.1 done.2.2) rot' later).j.clean_close = false := by
  obtain ⟨hconf, hrep, hkept⟩ := h
  obtain ⟨hp, hlen, hcloses⟩ := seal_ok hC hrep hkept hf hne hfew hsign
  have hbase := hconf.cleanBase hclean
  have hfit := daemon_line_fits sealed_at s.j.prev_hash hlen
  rw [hdone] at hseq
  have htold := event_told hrep hbase rfl hfit hseq
  have hspec := event_spec_of_fits hrep hbase hconf.rotating sealed_at 0 (by decide : Plain daemon_id) hp
    hfit hseq
  rw [hcloses, Bool.and_false, ← hdone] at htold
  rw [← hdone] at hspec
  obtain ⟨S', hS', hne', -, f, hf'⟩ := hspec
  have hstream : close_stream done.2.1 done.2.2 = ⟨fclose done.2.1.fs f, done.2.1.written⟩ := by
    simp only [close_stream, hf']
  rw [hstream] at hend ⊢
  have hrotates : done.2.2.rotates = rot'.enabled :=
    hS'.same.rotates.trans (hconf.rotates.trans hrot.symm)
  rw [← htold]
  exact @boot_clean_whole { done.2.2 with f := none, clean_close := true } S'
    ⟨fclose done.2.1.fs f, done.2.1.written⟩ path rot' (rep_close hS'.rep hf') (hS'.kept hkept) rfl hne'
    (hS'.same.base.trans hconf.base) hrotates hend.start hend.links later

theorem stop_unsealed (hno : ∀ key ∈ signing_key, ∀ text,
      retraced_journal_sign_file C (retraced_journal_close s.w s.j closed_at).1.fs key
        (retraced_journal_close s.w s.j closed_at).2.path 512 ≠ .ok text) :
    s.stop C (.graceful closed_at sealed_at signing_key) = retraced_journal_close s.w s.j closed_at := by
  simp only [Session.stop]
  generalize retraced_journal_close s.w s.j closed_at = closed at *
  split
  · rename_i text hsome
    obtain ⟨key, hkey, hsign⟩ := Option.map_eq_some_iff.mp hsome
    exact absurd hsign (hno key hkey text)
  · rfl

theorem stop_sealed (hclosed : retraced_journal_close s.w s.j closed_at = closed)
    (hsign : retraced_journal_sign_file C closed.1.fs key closed.2.path 512 = .ok text) :
    s.stop C (.graceful closed_at sealed_at (some key)) =
      (close_stream (retraced_journal_event closed.1 closed.2 sealed_at daemon_id 0 (some text)).2.1
          (retraced_journal_event closed.1 closed.2 sealed_at daemon_id 0 (some text)).2.2,
        (retraced_journal_event closed.1 closed.2 sealed_at daemon_id 0 (some text)).2.2) := by
  simp only [Session.stop, hclosed, Option.map_some, hsign]

/-- **Detection of unclean shutdowns.** After any run on a journal it could take up, however it ended,
the next boot calls the shutdown clean exactly when it was one, if and only if the end is one that can
be told: a crash must not leave a close marker last, and a close must neither rotate nor be sealed. -/
theorem shutdown_told_iff (hC : EncodesBase64 C) (hclean : CleanPath path rot) {fs : FS} {S₀ : Series}
    (hstart : Started path rot fs S₀) {rot' : Rotation} (hrot : rot'.enabled = rot.enabled)
    (now later : Int64) {ops : List Op}
    (hops : Along (Session.step path) (WriteOk path) (journal_boot path ⟨fs, S₀.lines⟩ rot now) ops)
    (hs : s = run (Session.step path) (journal_boot path ⟨fs, S₀.lines⟩ rot now) ops) {e : Ending}
    (hlast : LastWriteOk C path s e) (hend : EndOk (journal_base path) (s.stop C e).1) :
    ((journal_boot path (s.stop C e).1 rot' later).j.clean_close = true ↔ e.isGraceful = true) ↔
      ToldRight C s e := by
  obtain ⟨S, hS⟩ := holds_run hclean (holds_started hstart hclean) hops
  rw [← hs] at hS
  cases e with
  | crash stage n =>
    rw [crash_told hC hclean hS hlast hend hrot]
    simp only [Ending.isGraceful, ToldRight, toldClean]
    cases lastLine (s.stop C (.crash stage n)).1.fs (s.killed C stage).2 <;> simp
  | graceful closed_at sealed_at signing_key =>
    obtain ⟨hseq, hfew⟩ := hlast
    by_cases hno : ∀ key ∈ signing_key, ∀ text,
        retraced_journal_sign_file C (retraced_journal_close s.w s.j closed_at).1.fs key
          (retraced_journal_close s.w s.j closed_at).2.path 512 ≠ .ok text
    · rw [stop_unsealed hno] at hend hseq ⊢
      have hdue : ToldRight C s (.graceful closed_at sealed_at signing_key) ↔
          s.j.close_due closed_at = false := and_iff_left hno
      rw [close_told hclean hS hseq hend hrot, hdue]
      simp [Ending.isGraceful]
    · have hnot : ¬ ToldRight C s (.graceful closed_at sealed_at signing_key) := fun h => hno h.2
      push Not at hno
      obtain ⟨key, hkey, text, hsign⟩ := hno
      obtain rfl := Option.mem_def.mp hkey
      have hle := close_segment_seq_le C s closed_at sealed_at (some key)
      have hspec := holds_closed hclean hS (hle.trans_lt hseq)
      rw [stop_sealed rfl hsign] at hend hseq ⊢
      generalize retraced_journal_close s.w s.j closed_at = closed at *
      obtain ⟨S', hclosed, hne, hf, -⟩ := hspec
      generalize hdone :
        retraced_journal_event closed.1 closed.2 sealed_at daemon_id 0 (some text) = done at *
      rw [seal_told hC hclean hclosed hf hne hfew hsign hdone.symm hseq hend hrot]
      simp [Ending.isGraceful, hnot]

end

theorem startsFromZero_of_exists (h : segment_exists fs base 0 = true) : StartsFromZero fs base := by
  intro lo hlo
  left
  by_contra hne
  have := (segment_lo_eq_some.mp hlo).2.2 0 (Nat.pos_of_ne_zero hne)
  exact absurd (h.symm.trans this) (by decide)

def oneSignature : Crypto where
  PrivateKey := Unit
  PublicKey := Unit
  readPrivateKey _ := some ()
  readPublicKey _ := some ()
  digestSign _ _ := some [0, 0]
  verifyInit _ := true
  digestVerify _ _ _ _ := true
  encodeBlock _ := bytes "AAA="
  decodeBlock _ := some [0, 0, 0]

theorem oneSignature_encodes : EncodesBase64 oneSignature := by
  intro sig c hc
  have hall : (bytes "AAA=").all isBase64 = true := by decide
  exact all_eq_true.mp hall c hc

def keyFile : FS := fun p => if p = bytes "k" then some [] else none

def oneEvent (rot : Rotation) : Session :=
  run (Session.step (bytes "j")) (journal_boot (bytes "j") ⟨keyFile, Series.empty.lines⟩ rot 0)
    [.event 0 (bytes "a") 0 none]

/-- A plain shutdown is found clean. -/
theorem shutdown_told_oneEvent :
    (journal_boot (bytes "j") ((oneEvent ⟨1000, 0, 0⟩).stop oneSignature (.graceful 0 0 none)).1
      ⟨1000, 0, 0⟩ 0).j.clean_close = true := by
  have hclean : CleanPath (bytes "j") ⟨1000, 0, 0⟩ :=
    ⟨fun _ => by decide, fun _ => markersFit_of_length (by decide), fun _ h => absurd rfl h⟩
  have hfresh : Fresh keyFile (journal_base (bytes "j")) := by
    refine ⟨by decide, fun n => ?_⟩
    have hne : segment_file (journal_base (bytes "j")) n ≠ bytes "k" := by
      intro heq
      have := congrArg List.head? heq
      simp [segment_file, retraced_journal_segment_path, journal_base, snprintf, cstr, bytes] at this
    simp [keyFile, hne]
  have hops : Along (Session.step (bytes "j")) (WriteOk (bytes "j"))
      (journal_boot (bytes "j") ⟨keyFile, Series.empty.lines⟩ ⟨1000, 0, 0⟩ 0)
      [.event 0 (bytes "a") 0 none] := by
    refine ⟨⟨by decide, by simp [PayloadOk], ?_⟩, trivial⟩
    decide +kernel
  have hs : oneEvent ⟨1000, 0, 0⟩ = run (Session.step (bytes "j"))
      (journal_boot (bytes "j") ⟨keyFile, Series.empty.lines⟩ ⟨1000, 0, 0⟩ 0)
      [.event 0 (bytes "a") 0 none] := rfl
  have hlast : LastWriteOk oneSignature (bytes "j") (oneEvent ⟨1000, 0, 0⟩) (.graceful 0 0 none) :=
    ⟨by decide +kernel, by decide +kernel⟩
  have hend : EndOk (journal_base (bytes "j"))
      ((oneEvent ⟨1000, 0, 0⟩).stop oneSignature (.graceful 0 0 none)).1 := by
    refine ⟨startsFromZero_of_exists (by decide +kernel), by decide +kernel⟩
  have htold : ToldRight oneSignature (oneEvent ⟨1000, 0, 0⟩) (.graceful 0 0 none) :=
    ⟨by decide +kernel, by simp⟩
  exact ((shutdown_told_iff oneSignature_encodes hclean (.fresh hfresh) rfl 0 0 hops hs hlast hend).mpr
    htold).mpr rfl

/-- A sealed shutdown and one whose close rotates are not found clean; a crash right after the next boot
is, because the old close marker is still the last line. -/
theorem not_shutdown_told :
    (journal_boot (bytes "j") ((oneEvent ⟨0, 0, 0⟩).stop oneSignature
      (.graceful 0 0 (some (bytes "k")))).1 ⟨0, 0, 0⟩ 0).j.clean_close = false ∧
    (journal_boot (bytes "j") ((oneEvent ⟨150, 0, 0⟩).stop oneSignature
      (.graceful 0 0 none)).1 ⟨150, 0, 0⟩ 0).j.clean_close = false ∧
    (journal_boot (bytes "j") ((journal_boot (bytes "j") ((oneEvent ⟨0, 0, 0⟩).stop oneSignature
      (.graceful 0 0 none)).1 ⟨0, 0, 0⟩ 0).stop oneSignature (.crash .idle 0)).1
      ⟨0, 0, 0⟩ 0).j.clean_close = true := by
  refine ⟨?_, ?_, ?_⟩ <;> decide +kernel

end Retrace.Retraced
