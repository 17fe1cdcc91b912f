import Retrace.Ctl.Proofs.QueryProofs
import Retrace.Journal.Proofs.LiveReadProofs

/-!
# What `verify-journal` checks

With a key the command checks the seal of a journal in one file. A series of segments is only checked as
a chain: the key is not looked at.
-/

namespace Retrace.Ctl

open CLib Parson HashChain Retraced Option List

theorem chain_file_from_spec (hc : fs path = some content) (h : UInt64) :
    ((retraced_journal_chain_file_from fs path h 0).ret = 0 ↔
        Linked (Carries seeText) lineLink h (journal_chunks content)) ∧
      (Linked (Carries seeText) lineLink h (journal_chunks content) →
        (retraced_journal_chain_file_from fs path h 0).head_out = headOf lineLink h (journal_chunks content)) := by
  simp only [retraced_journal_chain_file_from, hc, chain_loop_spec, ← walk_exit_eof_iff]
  split_ifs with hexit
  · refine ⟨by simp [hexit], fun _ => ?_⟩
    rw [walk_linked ((walk_exit_eof_iff _ _).mp hexit)]
  · simp [hexit]

section

variable {fs : FS} {file : Path}

theorem verify_segment_rc (hc : fs (segment_file file seq) = some content) (hlo : s.carry = none ∨ seq ≠ lo) :
    (verify_segment fs file lo seq s).rc = 0 ↔
      s.rc = 0 ∧ (∀ h ∈ s.carry, h = segment_genesis_prev fs (segment_file file seq)) ∧
        Linked (Carries seeText) lineLink (segment_genesis_prev fs (segment_file file seq))
          (journal_chunks content) := by
  obtain ⟨hret, -⟩ := chain_file_from_spec hc (segment_genesis_prev fs (segment_file file seq))
  simp only [verify_segment, hc, isNone_some, Bool.false_eq_true, if_false, ← hret]
  generalize retraced_journal_chain_file_from fs (segment_file file seq) _ 0 = chain
  generalize segment_genesis_prev fs (segment_file file seq) = declared
  cases hcarry : s.carry with
  | none =>
    by_cases h0 : chain.ret = 0
    · simp [h0]
    · simp [h0]
  | some h =>
    have hne : seq ≠ lo := by simpa [hcarry] using hlo
    by_cases h0 : chain.ret = 0
    · by_cases hd : h = declared
      · simp [h0, hd]
      · simp [h0, hd, hne]
    · simp [h0]

theorem verify_segment_carry (hc : fs (segment_file file seq) = some content)
    (hl : Linked (Carries seeText) lineLink (segment_genesis_prev fs (segment_file file seq))
      (journal_chunks content)) : (verify_segment fs file lo seq s).carry = some (headOf lineLink
      (segment_genesis_prev fs (segment_file file seq)) (journal_chunks content)) := by
  have hhead := (chain_file_from_spec hc (segment_genesis_prev fs (segment_file file seq))).2 hl
  simp [verify_segment, hc, hhead]

theorem verify_segment_failed (hs : s.rc ≠ 0) : (verify_segment fs file lo seq s).rc ≠ 0 := by
  simp only [verify_segment]
  split_ifs <;> simp [hs]

theorem verify_segments_failed (seqs : List Nat) (hs : s.rc ≠ 0) :
    (seqs.foldl (fun s seq => verify_segment fs file lo seq s) s).rc ≠ 0 := by
  induction seqs generalizing s with
  | nil => exact hs
  | cons seq seqs ih => exact ih (verify_segment_failed hs)

theorem verify_round {seq : Nat} {seqs : List Nat} {s : VerifyState} (hlo : s.carry = none ∨ seq ≠ lo)
    (ih : ∀ s, (seqs.foldl (fun s seq => verify_segment fs file lo seq s) s).rc = 0 ↔
      s.rc = 0 ∧ SeriesChain fs file s.carry seqs) :
    ((seq :: seqs).foldl (fun s seq => verify_segment fs file lo seq s) s).rc = 0 ↔
      s.rc = 0 ∧ SeriesChain fs file s.carry (seq :: seqs) := by
  rw [foldl_cons]
  cases hc : fs (segment_file file seq) with
  | none =>
    have hskip : verify_segment fs file lo seq s = s := by simp [verify_segment, hc]
    rw [hskip, ih s]
    simp only [SeriesChain, hc]
  | some content =>
    have hrc := verify_segment_rc hc hlo
    simp only [SeriesChain, hc]
    constructor
    · intro h0
      have hround : (verify_segment fs file lo seq s).rc = 0 := by
        by_contra hne
        exact verify_segments_failed seqs hne h0
      obtain ⟨hs, hgen, hl⟩ := hrc.mp hround
      have hrest := ((ih _).mp h0).2
      rw [verify_segment_carry hc hl] at hrest
      exact ⟨hs, hgen, hl, hrest⟩
    · rintro ⟨hs, hgen, hl, hrest⟩
      rw [ih, verify_segment_carry hc hl]
      exact ⟨hrc.mpr ⟨hs, hgen, hl⟩, hrest⟩

theorem verify_segments_rc (seqs : List Nat) (hlo : lo ∉ seqs) (s : VerifyState) :
    (seqs.foldl (fun s seq => verify_segment fs file lo seq s) s).rc = 0 ↔
      s.rc = 0 ∧ SeriesChain fs file s.carry seqs := by
  induction seqs generalizing s with
  | nil => simp [SeriesChain]
  | cons seq seqs ih =>
    obtain ⟨hne, hlo⟩ := ne_and_not_mem_of_not_mem_cons hlo
    exact verify_round (.inr hne.symm) (ih hlo)

theorem verify_segments_out (seqs : List Nat) (s : VerifyState) (hs : ∀ v, .verdict v ∉ s.out) :
    (∀ v, .verdict v ∉ (seqs.foldl (fun s seq => verify_segment fs file lo seq s) s).out) ∧
      s.segments ≤ (seqs.foldl (fun s seq => verify_segment fs file lo seq s) s).segments := by
  induction seqs generalizing s with
  | nil => exact ⟨hs, Nat.le_refl _⟩
  | cons seq seqs ih =>
    have hstep : (∀ v, .verdict v ∉ (verify_segment fs file lo seq s).out) ∧
        s.segments ≤ (verify_segment fs file lo seq s).segments := by
      simp only [verify_segment]
      split_ifs <;> simp [hs]
    obtain ⟨hout, hle⟩ := ih _ hstep.1
    exact ⟨hout, hstep.2.trans hle⟩

end

section

variable {C : Crypto} {fs : FS} {file pubkey : Path}

theorem segment_range_spec {lo hi : Nat} (h : retraced_journal_segment_range fs file = some (lo, hi)) :
    segment_exists fs file lo = true ∧ lo ≤ hi := by
  simp only [retraced_journal_segment_range, bind_eq_bind, bind_eq_some_iff] at h
  obtain ⟨hi', -, lo', hlo, heq⟩ := h
  cases heq
  obtain ⟨hex, hle, -⟩ := segment_lo_eq_some.mp hlo
  exact ⟨hex, hle⟩

theorem cmd_verify_journal_series {lo hi : Nat}
    (hrange : retraced_journal_segment_range fs file = some (lo, hi)) (key : Option Path) :
    ((cmd_verify_journal C fs file key).rc = 0 ↔ SeriesChain fs file none (range' lo (hi + 1 - lo))) ∧
      ∀ v, .verdict v ∉ (cmd_verify_journal C fs file key).out := by
  obtain ⟨hex, hle⟩ := segment_range_spec hrange
  obtain ⟨n, hn⟩ : ∃ n, hi + 1 - lo = n + 1 := ⟨hi - lo, by omega⟩
  have hnot : lo ∉ range' (lo + 1) n := by
    simp [mem_range'_1]
  have hrc := @verify_round fs file lo lo (range' (lo + 1) n) {} (.inl rfl) (verify_segments_rc _ hnot)
  obtain ⟨hout, hseg⟩ := @verify_segments_out fs file lo (range' (lo + 1) n)
    (verify_segment fs file lo lo {})
    (@verify_segments_out fs file lo [lo] {} (by simp)).1
  have hone : (verify_segment fs file lo lo {}).segments = 1 := by
    obtain ⟨content, hc⟩ := isSome_iff_exists.mp hex
    simp [verify_segment, hc]
  simp only [cmd_verify_journal, hrange, hn, range'_succ, foldl_cons] at hrc ⊢
  generalize (range' (lo + 1) n).foldl (fun s seq => verify_segment fs file lo seq s)
    (verify_segment fs file lo lo {}) = s at *
  have hpos : s.segments ≠ 0 := by omega
  rw [if_neg hpos]
  refine ⟨by simpa using hrc, fun v hv => ?_⟩
  rcases mem_append.mp hv with hv | hv
  · exact hout v hv
  · split_ifs at hv <;> simp at hv

theorem linked_of_verified (hok : (retraced_journal_verify_file C fs file pubkey).ok = true)
    (hc : fs file = some content) : Linked (Carries seeText) lineLink 0 (journal_chunks content) := by
  by_contra hl
  have hret : (retraced_journal_chain_file fs file 0).ret ≠ 0 := fun h0 =>
    hl ((chain_file_from_spec hc 0).1.mp h0)
  simp [retraced_journal_verify_file, hret, SealVerdict.ok] at hok

theorem SealVerdict.eq_verified {v : SealVerdict} (h : v.ok = true) : ∃ n, v = .verified n := by
  cases v <;> simp [SealVerdict.ok] at h ⊢

/-- **Seals.** A verdict of success with a key means a verified seal exactly when the journal is not a
series of segments that chain up. -/
theorem meansSealed_iff (C : Crypto) (fs : FS) (file pubkey : Path) :
    MeansSealed C fs file pubkey ↔
      ∀ lo hi, retraced_journal_segment_range fs file = some (lo, hi) →
        ¬ SeriesChain fs file none (List.range' lo (hi + 1 - lo)) := by
  cases hrange : retraced_journal_segment_range fs file with
  | some range =>
    obtain ⟨lo, hi⟩ := range
    obtain ⟨hrc, hout⟩ := @cmd_verify_journal_series C fs file lo hi hrange (some pubkey)
    constructor
    · rintro h lo' hi' heq hchain
      cases heq
      obtain ⟨-, n, hn⟩ := h (hrc.mpr hchain)
      exact hout _ hn
    · intro h h0
      exact absurd (hrc.mp h0) (h lo hi rfl)
  | none =>
    refine ⟨fun _ lo hi h => by simp at h, fun _ h0 => ?_⟩
    simp only [cmd_verify_journal, hrange] at h0 ⊢
    cases hfile : fs file with
    | none => simp [hfile] at h0
    | some content =>
      simp only [hfile, isSome_some, if_true, verify_one] at h0 ⊢
      have hok : (retraced_journal_verify_file C fs file pubkey).ok = true := by
        by_contra hno
        simp [hno] at h0
      obtain ⟨n, hn⟩ := SealVerdict.eq_verified hok
      refine ⟨⟨0, ?_⟩, n, by simp [hn]⟩
      simpa [surviving, hrange, hfile] using linked_of_verified hok hfile

end

def firstRecord : Bytes := journal_line 0 (bytes "a") 0 0 none

def secondRecord : Bytes := journal_line 0 (bytes "a") 0 (lineLink firstRecord 0) none

theorem linked_one_record (hl : journal_line 0 (bytes "a") 0 h none = l) (hlen : l.length < 2048) :
    Linked (Carries seeText) lineLink h (journal_chunks l) ∧
      headOf lineLink h (journal_chunks l) = lineLink l h := by
  have hr : RecordLine h l := by
    subst hl
    exact recordLine_journal_line (by decide) (by simp [PayloadOk]) hlen
  have hchunks : journal_chunks l = [l] := by
    have := fgetsAll_line hr.isLine []
    simpa [journal_chunks, fgetsAll, fgetsFrom] using this
  rw [hchunks]
  exact ⟨⟨hr.text, trivial⟩, rfl⟩

theorem seriesChain_two (ha : declaredBy a = g) (hb : declaredBy b = h)
    (hla : Linked (Carries seeText) lineLink g (journal_chunks a))
      (hhead : headOf lineLink g (journal_chunks a) = h)
    (hlb : Linked (Carries seeText) lineLink h (journal_chunks b)) :
    SeriesChain (twoSegments a b) (bytes "j") none [0, 1] := by
  have hd0 : segment_genesis_prev (twoSegments a b) (segment_file (bytes "j") 0) = g :=
    (segment_genesis_prev_congr (twoSegments_zero a b)).trans ha
  have hd1 : segment_genesis_prev (twoSegments a b) (segment_file (bytes "j") 1) = h :=
    (segment_genesis_prev_congr (twoSegments_one a b)).trans hb
  simp only [SeriesChain, twoSegments_zero, twoSegments_one, hd0, hd1]
  refine ⟨by simp, hla, ?_, hlb, trivial⟩
  simp [hhead]

theorem not_meansSealed_of_series (hrange : retraced_journal_segment_range fs file = some (lo, hi))
    (hseqs : range' lo (hi + 1 - lo) = seqs) (hchain : SeriesChain fs file none seqs) :
    ¬ MeansSealed C fs file pubkey := by
  intro h
  obtain ⟨hrc, hout⟩ := @cmd_verify_journal_series C fs file lo hi hrange (some pubkey)
  rw [hseqs] at hrc
  obtain ⟨-, n, hn⟩ := h (hrc.mpr hchain)
  exact hout _ hn

theorem not_meansSealed_records
    (ha : journal_line 0 (bytes "a") 0 0 none = a) (hb : journal_line 0 (bytes "a") 0 h none = b)
    (hlink : lineLink a 0 = h) (hla : a.length < 2048) (hlb : b.length < 2048)
    (hda : declaredBy a = 0) (hdb : declaredBy b = h) :
    ¬ MeansSealed noCrypto (twoSegments a b) (bytes "j") (bytes "pub") := by
  have hseqs : range' 0 (1 + 1 - 0) = [0, 1] := rfl
  obtain ⟨hl, hhead⟩ := linked_one_record ha hla
  obtain ⟨hl', -⟩ := linked_one_record hb hlb
  exact not_meansSealed_of_series (twoSegments_range _ _) hseqs
    (seriesChain_two hda hdb hl (hhead.trans hlink) hl')

/-- A series of two unsigned records: the verdict is success, though no seal was looked at. -/
theorem not_meansSealed_twoSegments :
    ¬ MeansSealed noCrypto (twoSegments firstRecord secondRecord) (bytes "j") (bytes "pub") :=
  not_meansSealed_records (h := lineLink firstRecord 0) rfl rfl rfl (by decide_cbv)
    (by decide_cbv) (by decide_cbv) (by decide_cbv)

end Retrace.Ctl
