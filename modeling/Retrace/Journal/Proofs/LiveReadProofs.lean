import Retrace.Journal.Proofs.RoundTripProofs
import Retrace.Journal.Proofs.DiskProofs
import Retrace.Journal.Proofs.VerifierProofs

/-!
# Reading the live segment

The tail and the seal start from the link 0, whatever segment they read. An honest live segment behind
a rotation starts from the head of its predecessor, so they take it for a broken chain.
-/

namespace Retrace.Retraced

open CLib Parson HashChain Runs Option

variable {fs : FS}

theorem tail_ok_iff : (∃ t, retraced_journal_tail fs j last_n = some t ∧ t.chain_out = 0) ↔
      Linked (Carries seeRecord) lineLink 0 (readableLines ((fs j.path).getD [])) := by
  obtain ⟨hnone, hsome⟩ := @tail_spec fs j _ last_n rfl
  rw [readableLines, ← walk_exit_iff]
  generalize walk seeRecord lineLink 0 (journal_chunks ((fs j.path).getD [])) = W at *
  by_cases hmiss : W.exit = .missing
  · simp [hnone hmiss, hmiss]
  · obtain ⟨t, ht, hout⟩ := hsome hmiss
    rw [ht]
    have hcase : (∃ t', some t = some t' ∧ t'.chain_out = 0) ↔ t.chain_out = 0 := by simp
    rw [hcase, hout]
    cases hex : W.exit with
    | eof => simp
    | stopped => simp
    | missing => exact absurd hex hmiss
    | mismatch =>
      simp
      omega

theorem chain_file_ret_iff (hc : fs path = some content) : (retraced_journal_chain_file fs path 0).ret = 0 ↔
      Linked (Carries seeText) lineLink 0 (journal_chunks content) := by
  rw [← walk_exit_eof_iff]
  simp only [retraced_journal_chain_file, retraced_journal_chain_file_from, hc, chain_loop_spec]
  split_ifs with h <;> simp [h]

theorem sign_ok_iff (hc : fs path = some content) :
    (∀ line, retraced_journal_sign_file C fs key_path path rec_cap ≠ .error (.chain_broken line)) ↔
      Linked (Carries seeText) lineLink 0 (journal_chunks content) := by
  rw [← chain_file_ret_iff hc, retraced_journal_sign_file]
  by_cases hret : (retraced_journal_chain_file fs path 0).ret = 0
  · simp only [hret, ne_eq, not_true_eq_false, if_false, iff_true]
    intro line
    cases hs : sign_head C fs key_path _ with
    | error e =>
      -- Signing itself has other reasons to fail.
      unfold sign_head at hs
      split at hs
      · cases hs; simp
      · split at hs
        · cases hs; simp
        · split at hs
          · cases hs; simp
          · cases hs
    | ok sig =>
      simp only
      split_ifs <;> simp
  · simp [hret]

theorem isLine_of_linked (hl : Linked RecordLine lineLink g ls) : ∀ l ∈ ls, IsLine 2048 l := by
  intro l hm
  obtain ⟨h', hr⟩ := hl.ok_of_mem hm
  exact hr.isLine

theorem readableLines_prefix (hl : Linked RecordLine lineLink g ls) (hp : p <+: ls.flatten) :
    ∃ k part, p = (ls.take k).flatten ++ part ∧ newline ∉ part ∧ readableLines p = ls.take k ∧
      journal_chunks p = ls.take k ++ if part = [] then [] else [part] := by
  obtain ⟨k, part, hpk, hnl, hcap⟩ := exists_take_of_prefix (isLine_of_linked hl) hp
  have hchunks : journal_chunks p = ls.take k ++ if part = [] then [] else [part] := by
    rw [hpk]
    exact fgetsAll_begins (isLine_of_linked hl) hnl hcap
  have hcarries := carries_of_linked (hl.take k)
  refine ⟨k, part, hpk, hnl, ?_, hchunks⟩
  rw [readableLines, hchunks]
  split_ifs with h
  · rw [List.append_nil]
    exact readable_linked hcarries
  · exact readable_append_stop hcarries (seeRecord_torn hnl) []

theorem linked_zero_iff (hl : Linked (Carries seeRecord) lineLink g ls) :
    Linked (Carries seeRecord) lineLink 0 ls ↔ ls = [] ∨ g = 0 := by
  constructor
  · intro h
    cases ls with
    | nil => exact .inl rfl
    | cons l ls =>
      right
      have h1 : seeRecord l = .link g := hl.1
      have h2 : seeRecord l = .link 0 := h.1
      simpa [h1] using h2
  · rintro (rfl | rfl)
    · trivial
    · exact hl

theorem readable_zero_iff (hl : Linked RecordLine lineLink g ls) (hc : (fs path).getD [] = p)
    (hp : p <+: ls.flatten) :
    Linked (Carries seeRecord) lineLink 0 (readableLines ((fs path).getD [])) ↔ FileStartsFromZero fs path := by
  obtain ⟨k, part, -, hnl, hread, hchunks⟩ := readableLines_prefix hl hp
  have hcarries := carries_of_linked (hl.take k)
  rw [FileStartsFromZero, hc, hread, hchunks, linked_zero_iff hcarries]
  cases hk : ls.take k with
  | nil =>
    simp only [true_or, true_iff, List.nil_append]
    intro l hm v hv
    split_ifs at hm with hpart
    · simp at hm
    · obtain rfl : part = l := by simpa using hm
      rw [seeRecord_torn hnl] at hv
      cases hv
  | cons l rest =>
    rw [hk] at hcarries
    have hlink : seeRecord l = .link g := hcarries.1
    simp [hlink, eq_comm]

theorem text_zero_iff (hl : Linked RecordLine lineLink g ls) (hne : ls ≠ []) (hc : fs path = some ls.flatten) :
    Linked (Carries seeText) lineLink 0 (journal_chunks ls.flatten) ↔ FileStartsFromZero fs path := by
  obtain ⟨l, rest, rfl⟩ := List.exists_cons_of_ne_nil hne
  have hlink : seeRecord l = .link g := hl.1.record
  rw [FileStartsFromZero, hc, getD_some, chunks_records hl]
  have hiff : (∀ l' ∈ (l :: rest).head?, ∀ v, seeRecord l' = .link v → v = 0) ↔ g = 0 := by
    simp [hlink, eq_comm]
  rw [hiff]
  constructor
  · intro h
    have h1 : seeText l = .link 0 := h.1
    rw [hl.1.text] at h1
    simpa using h1
  · rintro rfl
    exact hl.imp fun _ _ hr => hr.text

section

variable {path : Bytes} {enabled : Bool} (hplain : enabled = true → Plain (journal_base path))
  (hmarkers : enabled = true → MarkersFit (journal_base path))
include hplain hmarkers

/-- **Reading the live journal.** After any run of events, flushes and restarts without retention the
tail of the journal finds no broken line, and the seal of the closed journal is not refused for one,
exactly when the live segments they read start from the link 0. -/
theorem live_reads_iff {fs : FS} (hfresh : Fresh fs (journal_base path)) {rot : Rotation}
    (hrot : rot.enabled = enabled) (hbud : rot.budget_bytes = 0) (now closed_at : Int64) {ops : List Op}
    (hops : Along (Session.step path) (RoundTripOk path enabled) (journal_boot path ⟨fs, []⟩ rot now) ops)
    {s : Session} (hs : s = run (Session.step path) (journal_boot path ⟨fs, []⟩ rot now) ops)
    {closed : World × Journal} (hclosed : closed = retraced_journal_close s.w s.j closed_at)
    (hseq : closed.2.segment_seq < 10000) (C : Crypto) (n last_n : Nat) (key_path : Path)
    (rec_cap : Nat) :
    LiveReads C s n last_n closed key_path rec_cap ↔
      FileStartsFromZero (s.disk n) s.j.path ∧ FileStartsFromZero closed.1.fs closed.2.path := by
  obtain ⟨rot₁, S, hrot₁, hbud₁, hS, -⟩ := holdsAll_run hplain hmarkers hfresh hrot hbud now hops hs
  rw [hclosed] at hseq
  obtain ⟨S', hst, hne, -, -, -, hpath⟩ :=
    holds_close (cleanPath_of_plain hplain hmarkers hrot₁ hbud₁) hS hseq
  rw [← hclosed] at hst hpath
  have hfile : closed.1.fs closed.2.path = some S'.live.flatten := by
    rw [hpath]
    simpa using hst.live
  have htail := readable_zero_iff S.live_linked rfl (hS.2.1.disk_begins n)
  have hsign := text_zero_iff S'.live_linked hne hfile
  rw [← htail, ← hsign, ← tail_ok_iff, ← sign_ok_iff hfile]
  exact ⟨fun h => ⟨h.tail, h.sign⟩, fun h => ⟨h.1, h.2⟩⟩

end

theorem fileStartsFromZero_of_head
    (h : (journal_chunks ((fs path).getD [])).head?.map seeRecord = some (.link 0)) :
    FileStartsFromZero fs path := by
  intro l hl v hv
  rw [mem_def.mp hl, map_some, hv] at h
  simpa using h

def firstSegment : Session :=
  run (Session.step (bytes "j")) (journal_boot (bytes "j") ⟨fun _ => none, []⟩ ⟨1000, 0, 0⟩ 0)
    [.event 0 (bytes "a") 0 none]

def firstSegmentClosed : World × Journal := retraced_journal_close firstSegment.w firstSegment.j 0

/-- In the first segment the reads go through. -/
theorem live_reads_firstSegment :
    LiveReads noCrypto firstSegment 100 10 firstSegmentClosed (bytes "key") 512 := by
  have hops : Along (Session.step (bytes "j")) (RoundTripOk (bytes "j") true)
      (journal_boot (bytes "j") ⟨fun _ => none, []⟩ ⟨1000, 0, 0⟩ 0) [.event 0 (bytes "a") 0 none] := by
    refine ⟨⟨by decide, by simp [PayloadOk], ?_⟩, trivial⟩
    decide
  have hs : firstSegment = run (Session.step (bytes "j"))
      (journal_boot (bytes "j") ⟨fun _ => none, []⟩ ⟨1000, 0, 0⟩ 0) [.event 0 (bytes "a") 0 none] := rfl
  have hseq : firstSegmentClosed.2.segment_seq < 10000 := by decide
  refine (live_reads_iff (fun _ => by decide) (fun _ => markersFit_of_length (by decide))
    ⟨rfl, fun _ => rfl⟩ rfl rfl 0 0 hops hs rfl hseq noCrypto 100 10 (bytes "key") 512).mpr ⟨?_, ?_⟩
  · exact fileStartsFromZero_of_head (by decide +kernel)
  · exact fileStartsFromZero_of_head (by decide +kernel)

/-- Behind a rotation the tail reports the first line of the live segment as broken, and the seal is
refused for it. -/
theorem not_live_reads_rotatedOnce :
    ¬ LiveReads noCrypto (rotatedOnce 0) 0 10 (rotatedOnceClosed 0) (bytes "key") 512 ∧
      (retraced_journal_tail ((rotatedOnce 0).disk 0) (rotatedOnce 0).j 10).map TailResult.chain_out =
        some 1 ∧
      retraced_journal_sign_file noCrypto (rotatedOnceClosed 0).1.fs (bytes "key")
        (rotatedOnceClosed 0).2.path 512 = .error (.chain_broken 1) := by
  have htail : (retraced_journal_tail ((rotatedOnce 0).disk 0) (rotatedOnce 0).j 10).map
      TailResult.chain_out = some 1 := by
    decide +kernel
  refine ⟨fun h => ?_, htail, by decide +kernel⟩
  obtain ⟨t, ht, hout⟩ := h.tail
  rw [ht, map_some, hout] at htail
  cases htail

end Retrace.Retraced
