import Retrace.Journal.Proofs.RecordProofs

/-!
# The markers of rotation and retention

Segment paths are told apart by their numbers. The markers that name them are records when the base
name needs no escape and the markers are not cut.
-/

namespace Retrace.Retraced

open CLib Parson HashChain List

variable {head : UInt64}

theorem segment_path_eq (hcap : base.length + 5 < cap) (hn : n < 10000) :
    retraced_journal_segment_path base n cap = base ++ bytes "." ++ fmtNat4 n := by
  have hdot : (bytes ".").length = 1 := rfl
  have := fmtNat4_length hn
  exact snprintf_eq_self (by simp; omega)

theorem segment_file_eq (hb : base.length ≤ 511) (hn : n < 10000) :
    segment_file base n = base ++ bytes "." ++ fmtNat4 n :=
  segment_path_eq (by omega) hn

theorem segment_file_length (hb : base.length ≤ 511) (hn : n < 10000) :
    (segment_file base n).length = base.length + 5 := by
  have hdot : (bytes ".").length = 1 := rfl
  rw [segment_file_eq hb hn, length_append, length_append, fmtNat4_length hn, hdot]

theorem segment_file_inj (hb : base.length ≤ 511) (hk : k < 10000)
    (h : segment_file base k = segment_file base n) : k = n := by
  have hlen := segment_file_length hb hk
  rw [h] at hlen
  -- The path of `n` is shorter than its buffer, so it was not cut.
  have huncut : segment_file base n = base ++ bytes "." ++ fmtNat4 n := by
    have : (snprintf 600 (base ++ bytes "." ++ fmtNat4 n)).length = base.length + 5 := hlen
    rw [snprintf, length_take] at this
    exact snprintf_eq_self (by omega)
  rw [segment_file_eq hb hk, huncut, append_cancel_left_eq] at h
  have := congrArg (digitsVal 10) h
  rwa [digitsVal_fmtNat4, digitsVal_fmtNat4] at this

theorem segment_file_ne_base (hb : base.length ≤ 511) (n : Nat) : segment_file base n ≠ base := by
  intro h
  have hdot : (bytes ".").length = 1 := rfl
  have hlen : (snprintf 600 (base ++ bytes "." ++ fmtNat4 n)).length = base.length :=
    congrArg List.length h
  simp [snprintf] at hlen
  omega

theorem segment_file_plain (hp : Plain base) (n : Nat) : Plain (segment_file base n) :=
  Plain.snprintf (by simp [hp, fmtNat4_plain, bytes]; decide) 600

theorem base_short_of_markersFit (hb : base.length ≤ 511) (hnul : 0 ∉ base) (hm : MarkersFit base) :
    base.length ≤ 506 := by
  have hopened := (hm 0 0 0 (by norm_num)).2
  have hcstr : ∀ n, n < 10000 → cstr (segment_file base n) = segment_file base n := by
    intro n hn
    refine cstr_eq_self (not_mem_zero_snprintf ?_ 600)
    simp [hnul, (fmtNat4_plain n).inline.not_mem_zero, bytes]
  rw [segment_opened_text, hcstr 0 (by norm_num), hcstr (0 + 1) (by norm_num)] at hopened
  simp [segment_file_length hb] at hopened
  omega

theorem fmtInt_length_le (ts : Int64) : (fmtInt ts.toInt).length ≤ 20 := by
  have h1 := ts.toInt_lt
  have h2 := ts.le_toInt
  have h3 := fmtNat_length_le (n := ts.toInt.natAbs) (k := 19) (by norm_num) (by norm_num; omega)
  unfold fmtInt
  split_ifs <;> simp <;> omega

theorem markersFit_of_length (hb : base.length ≤ 199) : MarkersFit base := by
  intro n head lines hn
  have h1 := cstr_length_le (segment_file base n)
  have h2 := cstr_length_le (segment_file base (n + 1))
  rw [segment_file_length (by omega) (by omega)] at h1 h2
  have h3 := fmtNat_length_le (n := lines.toNat) (k := 20) (by norm_num)
    (by have := lines.toNat_lt; norm_num; omega)
  constructor
  · simp [segment_closed_text, bytes]
    omega
  · simp [segment_opened_text, bytes]
    omega

theorem payloadOk_of_scalars (names vals : List Bytes) (hlen : text.length < cap)
    (hnames : names ≠ [] ∧ names.Nodup ∧ ∀ k ∈ names, Plain k) (hvals : ∀ v ∈ vals, ScalarText v)
    (hsize : names.length = vals.length) (heq : text = renderObject (names.zip vals)) :
    PayloadOk (some (snprintf cap text)) := by
  intro p hp
  obtain rfl : snprintf cap text = p := by simpa using hp
  have hfst : (names.zip vals).map Prod.fst = names := map_fst_zip hsize.le
  rw [snprintf_eq_self hlen, heq]
  refine objectText_of_scalars (fun h => hnames.1 ?_) (hfst.symm ▸ hnames.2.1) fun m hm => ?_
  · rw [← hfst, h, map_nil]
  · exact ⟨hnames.2.2 m.1 (of_mem_zip hm).1, hvals m.2 (of_mem_zip hm).2⟩

theorem payloadOk_segment_closed {lines : UInt64} (hc : Plain closed)
    (hlen : (segment_closed_text closed head lines).length < 512) :
    PayloadOk (some (snprintf 512 (segment_closed_text closed head lines))) := by
  refine payloadOk_of_scalars [bytes "name", bytes "segment", bytes "head", bytes "lines"]
    [quoted (bytes "retrace.journal.segment_closed"), quoted closed, quoted (fmtHex16 head), fmtNat lines.toNat]
    hlen (by decide) ?_ rfl ?_
  · simpa using ⟨.string (by decide), .string hc, .string (fmtHex16_plain _), .nat lines.toNat_lt⟩
  · simp [segment_closed_text, hc.cstr, renderObject, renderMembers, renderMember, quoted, bytes]

theorem payloadOk_segment_opened (ho : Plain opened)
    (hc : Plain closed) (hlen : (segment_opened_text opened closed head).length < 512) :
    PayloadOk (some (snprintf 512 (segment_opened_text opened closed head))) := by
  refine payloadOk_of_scalars [bytes "name", bytes "segment", bytes "prev_segment", bytes "prev_head"]
    [quoted (bytes "retrace.journal.segment_opened"), quoted opened, quoted closed, quoted (fmtHex16 head)]
    hlen (by decide) ?_ rfl ?_
  · simpa using ⟨.string (by decide), .string ho, .string hc, .string (fmtHex16_plain _)⟩
  · simp [segment_opened_text, ho.cstr, hc.cstr, renderObject, renderMembers, renderMember, quoted, bytes]

theorem payloadOk_segment_pruned {segment : Bytes} (hs : Plain segment)
    (hlen : (segment_pruned_text segment size).length < 256) :
    PayloadOk (some (snprintf 256 (segment_pruned_text segment size))) := by
  refine payloadOk_of_scalars [bytes "name", bytes "segment", bytes "bytes"]
    [quoted (bytes "retrace.journal.segment_pruned"), quoted segment, fmtInt size.toInt] hlen (by decide) ?_ rfl ?_
  · simpa using ⟨.string (by decide), .string hs, .int (natAbs_toInt_lt size)⟩
  · simp [segment_pruned_text, hs.cstr, renderObject, renderMembers, renderMember, quoted, bytes]

theorem payloadOk_name (name : Bytes) (hname : Plain name)
    (heq : text = renderObject [(bytes "name", quoted name)]) : PayloadOk (some text) := by
  intro p hp
  obtain rfl : text = p := by simpa using hp
  rw [heq]
  exact objectText_of_scalars (by simp) (by simp) (by simpa using ⟨by decide, .string hname⟩)

theorem payloadOk_journal_closed : PayloadOk (some journal_closed_record) :=
  payloadOk_name (bytes "retrace.journal.closed") (by decide) (by decide)

theorem journal_line_length_le (ts : Int64) (agent_id : Bytes) (seq prev_hash : UInt64) (payload : Option Bytes) :
    (journal_line ts agent_id seq prev_hash payload).length ≤
      agent_id.length + (payload.getD (bytes "\x7b\x7d")).length + 110 := by
  have h1 := fmtInt_length_le ts
  have h2 := fmtNat_length_le (n := seq.toNat) (k := 20) (by norm_num)
    (by have := seq.toNat_lt; norm_num; omega)
  have h3 := cstr_length_le agent_id
  have h4 := cstr_length_le (payload.getD (bytes "\x7b\x7d"))
  simp only [journal_line, length_append, fmtHex16_length]
  have hlits : (bytes "\x7b\"ts\":").length = 6 ∧ (bytes ",\"agent\":\"").length = 10 ∧
      (bytes "\",\"seq\":").length = 8 ∧ (bytes ",\"prev\":\"").length = 9 ∧
      (bytes "\",\"ev\":").length = 7 ∧ (bytes "\x7d\n").length = 2 := by decide
  omega

theorem daemon_line_fits (ts : Int64) (prev_hash : UInt64) (hlen : payload.length < 512) :
    (journal_line ts daemon_id 0 prev_hash (some payload)).length < 2048 := by
  have h := journal_line_length_le ts daemon_id 0 prev_hash (some payload)
  have hid : daemon_id.length = 6 := rfl
  simp only [Option.getD_some] at h
  omega

end Retrace.Retraced
