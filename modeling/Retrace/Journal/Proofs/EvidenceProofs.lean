import Retrace.Journal.Evidence
import Retrace.Journal.Proofs.ReplayProofs
import Retrace.CLib.Proofs.StdioProofs

/-!
# When the replay is fail-closed

A line that cannot be read ends the replay of a file without complaint, whatever follows it. So an
accepted journal is a verified one exactly when nothing but an unfinished last line stands behind the
readable lines.
-/

namespace Retrace.Retraced

open CLib Parson HashChain List Option

theorem isLine_of_readable (hc : c ∈ journal_chunks content) (hs : seeRecord c ≠ .stop) :
    IsLine 2048 c ∧ cstr c = c := by
  obtain ⟨⟨b, x, rfl, hb⟩, hlen⟩ := mem_fgetsFrom (by norm_num) (by simp) (by simp) hc
  have hlast : (cstr (b ++ [x])).getLast? = some newline := by
    by_contra h
    exact hs (by simp [seeRecord, h])
  have hprefix : cstr (b ++ [x]) <+: b ++ [x] := takeWhile_prefix _
  rcases prefix_concat_iff.mp hprefix with heq | hpre
  · rw [heq] at hlast
    obtain rfl : x = newline := by simpa using hlast
    exact ⟨⟨b, rfl, hb, hlen⟩, heq⟩
  · -- The only newline is the last byte, so a line cut by a NUL does not end in one.
    exact absurd (hpre.subset (mem_of_getLast? hlast)) hb

theorem isLine_of_mem_readableLines (hl : l ∈ readableLines content) : IsLine 2048 l :=
  (isLine_of_readable ((takeWhile_sublist _).subset hl) (see_ne_stop_of_mem_readable hl)).1

theorem content_eq (content : Bytes) : content = (readableLines content).flatten ++ unreadBytes content := by
  rw [readableLines, unreadBytes, ← flatten_append, readable_append_unread, journal_chunks, flatten_fgetsAll]

theorem completeLines_eq (content : Bytes) :
    completeLines content = readableLines content ++ completeLines (unreadBytes content) := by
  conv_lhs => rw [content_eq content]
  exact (completeLines_append (fun l hl => isLine_of_mem_readableLines hl) _).1

theorem tornTail_eq : tornTail content = tornTail (unreadBytes content) := by
  conv_lhs => rw [content_eq content]
  exact (completeLines_append (fun l hl => isLine_of_mem_readableLines hl) _).2

theorem chunks_unreadBytes (content : Bytes) :
    fgetsAll 2048 (unreadBytes content) = unread seeRecord (journal_chunks content) := by
  have hlines : ∀ l ∈ readableLines content, IsLine 2048 l := fun l hl => isLine_of_mem_readableLines hl
  have h := fgetsAll_lines hlines (unreadBytes content)
  rw [← content_eq] at h
  have hsplit : readableLines content ++ unread seeRecord (journal_chunks content) =
    fgetsAll 2048 content := readable_append_unread seeRecord (journal_chunks content)
  exact (append_cancel_left (hsplit.trans h)).symm

theorem not_verified_unread (hl : Linked VerifiedLine lineLink h (completeLines (unreadBytes content))) :
    newline ∉ unreadBytes content := by
  intro hmem
  obtain ⟨b, rest, heq, hb⟩ := exists_first_line hmem
  rw [heq, completeLines_line hb] at hl
  obtain ⟨⟨hlen, hlink⟩, -⟩ := hl
  have hchunks := chunks_unreadBytes content
  have hline : IsLine 2048 (b ++ [newline]) := ⟨b, rfl, hb, hlen⟩
  rw [heq, show b ++ newline :: rest = (b ++ [newline]) ++ rest by simp, fgetsAll_line hline] at hchunks
  have hstop := see_head_unread hchunks.symm
  rw [hlink] at hstop
  cases hstop

theorem verifiedLine_of_carries (hl : Linked (Carries seeRecord) lineLink h (readableLines content)) :
    Linked VerifiedLine lineLink h (readableLines content) := by
  have hlines : ∀ l ∈ readableLines content, IsLine 2048 l := fun l hl => isLine_of_mem_readableLines hl
  generalize readableLines content = ls at *
  induction ls generalizing h with
  | nil => trivial
  | cons l ls ih =>
    obtain ⟨b, -, -, hlen⟩ := hlines l mem_cons_self
    exact ⟨⟨hlen, hl.1⟩, ih hl.2 fun l hl => hlines l (mem_cons_of_mem _ hl)⟩

theorem linked_completeLines_iff (hl : Linked (Carries seeRecord) lineLink h (readableLines content)) :
    Linked VerifiedLine lineLink h (completeLines content) ↔ newline ∉ unreadBytes content := by
  rw [completeLines_eq, linked_append]
  constructor
  · exact fun hv => not_verified_unread hv.2
  · intro hno
    rw [completeLines_of_not_mem hno]
    exact ⟨verifiedLine_of_carries hl, trivial⟩

theorem completeLines_of_no_unread (hno : newline ∉ unreadBytes content) :
    completeLines content = readableLines content := by
  rw [completeLines_eq, completeLines_of_not_mem hno, append_nil]

theorem verified_iff (hc : ReadableChain h files) : Verified h files ↔ OnlyTailUnread files := by
  have hnil : readableLines [] = [] ∧ unreadBytes [] = [] := ⟨rfl, rfl⟩
  induction files generalizing h with
  | nil => exact ⟨fun _ => ⟨by simp, by simp⟩, fun _ => ⟨by simp, trivial, by simp⟩⟩
  | cons f files ih =>
    cases f with
    | none =>
      obtain rfl : files = [] := hc
      exact ⟨fun _ => ⟨by simp, by simp [hnil.2]⟩, fun _ => ⟨by simp, trivial, by simp⟩⟩
    | some content =>
      obtain ⟨hl, -, hrest⟩ := hc
      have hone := linked_completeLines_iff hl
      cases files with
      | nil =>
        refine ⟨fun hv => ⟨by simp, ?_⟩, fun ht => ⟨by simp, ?_, by simp⟩⟩
        · simpa using hone.mp (by simpa using hv.lines)
        · simpa using hone.mpr (by simpa using ht.live)
      | cons g files =>
        have ih := ih hrest
        constructor
        · intro hv
          have hlines : Linked VerifiedLine lineLink h (completeLines content ++
            (g :: files).flatMap fun f => completeLines (f.getD [])) := hv.lines
          rw [linked_append] at hlines
          have hno := hone.mp hlines.1
          have hempty : unreadBytes content = [] := by
            have := hv.whole (some content) (by simp)
            rwa [getD_some, tornTail_eq, tornTail_of_not_mem hno] at this
          rw [completeLines_of_no_unread hno] at hlines
          have ht := ih.mp ⟨fun f hf => hv.present f (by simp [hf]), hlines.2, fun f hf =>
              hv.whole f (by simp [hf])⟩
          refine ⟨?_, by simpa using ht.live⟩
          intro f hf
          rcases mem_cons.mp (by simpa using hf : f ∈ some content :: (g :: files).dropLast)
            with rfl | hf
          · exact hempty
          · exact ht.closed f hf
        · intro ht
          have hempty : unreadBytes content = [] := ht.closed (some content) (by simp)
          have hno : newline ∉ unreadBytes content := by simp [hempty]
          have hv := ih.mpr ⟨fun f hf => ht.closed f (by simp [hf]), by simpa using ht.live⟩
          refine ⟨?_, ?_, ?_⟩
          · intro f hf
            rcases mem_cons.mp (by simpa using hf : f ∈ some content :: (g :: files).dropLast)
              with rfl | hf
            · simp
            · exact hv.present f hf
          · show Linked VerifiedLine lineLink h (completeLines content ++
              (g :: files).flatMap fun f => completeLines (f.getD []))
            rw [linked_append]
            refine ⟨hone.mpr hno, ?_⟩
            rw [completeLines_of_no_unread hno]
            exact hv.lines
          · intro f hf
            rcases mem_cons.mp (by simpa using hf : f ∈ some content :: (g :: files).dropLast)
              with rfl | hf
            · rw [getD_some, tornTail_eq, hempty]
              rfl
            · exact hv.whole f hf

theorem replayExit_ne_broken_iff : replayExit e ≠ .broken ↔ e = .eof ∨ e = .stopped := by
  cases e <;> simp [replayExit]

theorem replay_file_linked (hc : fs path = some content)
    (hl : Linked (Carries seeRecord) lineLink h (readableLines content)) (j : Journal)
      (r : Registry) (last : Bool) :
    ∃ j' r', journal_replay_file fs j r path h last = (headOf lineLink h (readableLines content), j', r') ∧
      j'.base = j.base ∧ j'.segment_seq = j.segment_seq ∧ j'.chain_broken_at = j.chain_broken_at := by
  have hex := replayExit_ne_broken_iff.mpr ((walk_exit_iff h (journal_chunks content)).mpr hl)
  rw [journal_replay_file_ok hc j r h last hex, walk_of_readable hl]
  refine ⟨_, _, rfl, rfl, rfl, ?_⟩
  rw [walk_of_readable hl] at hex
  simp only [Journal.walked, if_neg hex]

theorem replay_file_not_linked (hc : fs path = some content)
    (hl : ¬ Linked (Carries seeRecord) lineLink h (readableLines content)) (j : Journal) (r : Registry)
    (last : Bool) : (journal_replay_file fs j r path h last).1 = broken_head := by
  have hex : replayExit (walk seeRecord lineLink h (journal_chunks content)).exit = .broken := by
    by_contra hcon
    exact hl ((walk_exit_iff h _).mp (replayExit_ne_broken_iff.mp hcon))
  obtain ⟨r', hr'⟩ := journal_replay_file_broken hc j r h last hex
  rw [hr']

theorem replay_segments_accepts (fs : FS) (n k : Nat) (h : UInt64) (j : Journal) (r : Registry)
    (hn : k + n = j.segment_seq + 1) (hh : h ≠ broken_head) :
    ((replay_segments fs (range' k n) j r h).1 ≠ broken_head ↔
        ReadableChain h ((range' k n).map fun seq => fs (segment_file j.base seq))) ∧
      ((replay_segments fs (range' k n) j r h).1 ≠ broken_head →
        (replay_segments fs (range' k n) j r h).2.1.chain_broken_at = j.chain_broken_at) := by
  induction n generalizing k h j r with
  | zero => simp [replay_segments, ReadableChain, hh]
  | succ n ih =>
    rw [range'_succ, map_cons]
    simp only [replay_segments]
    cases hf : fs (segment_file j.base k) with
    | none =>
      cases n with
      | zero =>
        have hlast : (k == j.segment_seq) = true := by simp; omega
        simp [journal_replay_file, hf, hlast, hh, replay_segments, ReadableChain]
      | succ n =>
        have hlast : (k == j.segment_seq) = false := by simp; omega
        simp [journal_replay_file, hf, hlast, ReadableChain, range'_succ]
    | some content =>
      by_cases hl : Linked (Carries seeRecord) lineLink h (readableLines content)
      · obtain ⟨j', r', heq, hbase, hseq, hbroken⟩ := replay_file_linked hf hl j r (k == j.segment_seq)
        rw [heq]
        by_cases hhead : headOf lineLink h (readableLines content) = broken_head
        · simp [hhead, ReadableChain]
        · have ih := ih (k + 1) _ j' r' (by omega) hhead
          rw [hbase, hbroken] at ih
          simp only [ReadableChain, hl, hhead, ne_eq, not_false_eq_true, true_and]
          exact ih
      · have heq := replay_file_not_linked hf hl j r (k == j.segment_seq)
        generalize journal_replay_file fs j r (segment_file j.base k) h (k == j.segment_seq) = res at heq
        obtain ⟨prev, j', r'⟩ := res
        obtain rfl : prev = broken_head := heq
        simp [ReadableChain, hl]

theorem replay_result_ok_iff (res : UInt64 × Journal × Registry) : (replay_result res).1 = 0 ↔
    res.1 ≠ broken_head := by
  obtain ⟨prev, j, r⟩ := res
  by_cases h : prev = broken_head <;> simp [replay_result, h]

theorem replay_result_chain_broken_at (res : UInt64 × Journal × Registry) :
    (replay_result res).2.1.chain_broken_at = res.2.1.chain_broken_at := by
  obtain ⟨prev, j, r⟩ := res
  by_cases h : prev = broken_head <;> simp [replay_result, h]

theorem replay_accepts_iff (hex : j.rotates = true ∨ fs j.path ≠ none) :
    ((retraced_journal_replay fs j r).1 = 0 ↔ ReadableChain 0 (replayed_files fs j)) ∧
      ((retraced_journal_replay fs j r).1 = 0 → (retraced_journal_replay fs j r).2.1.chain_broken_at = -1) := by
  have h0 : (0 : UInt64) ≠ broken_head := by decide
  set j0 : Journal := { j with
    replay_ok := 0
    replay_events := 0
    chain_broken_at := -1
    clean_close := false } with hj0
  have hrot0 : j0.rotates = j.rotates := rfl
  rw [retraced_journal_replay, ← hj0, replayed_files]
  cases hrot : j.rotates with
  | true =>
    simp only [hrot0, hrot, if_true, show j0.base = j.base from rfl, show j0.segment_seq = j.segment_seq from rfl]
    cases hlo : retraced_journal_segment_lo fs j.base j.segment_seq with
    | none => simp [ReadableChain, hj0]
    | some lo =>
      have hle : lo ≤ j.segment_seq := by
        have := mem_of_find?_eq_some hlo
        simp at this
        omega
      have h := replay_segments_accepts fs (j.segment_seq + 1 - lo) lo 0 j0 r
        (by show lo + _ = j.segment_seq + 1; omega) h0
      simp only [replay_result_ok_iff, replay_result_chain_broken_at]
      exact h
  | false =>
    have hex' : fs j.path ≠ none := hex.resolve_left (by simp [hrot])
    obtain ⟨content, hc⟩ := ne_none_iff_exists'.mp hex'
    simp only [hrot0, hrot, show j0.path = j.path from rfl, hc, isNone_some, Bool.false_eq_true,
      if_false, replay_result_ok_iff, replay_result_chain_broken_at, ReadableChain, and_true]
    by_cases hl : Linked (Carries seeRecord) lineLink 0 (readableLines content)
    · obtain ⟨j', r', heq, -, -, hbroken⟩ := replay_file_linked hc hl j0 r true
      rw [heq]
      exact ⟨⟨fun hne => ⟨hl, hne⟩, fun hne => hne.2⟩, fun _ => hbroken⟩
    · simp [replay_file_not_linked hc hl, hl]

/-- **The replay is fail-closed** (an accepted journal is a verified one: every complete line of every
segment carries the link of the line before it, and only the live segment may end in an incomplete
line) exactly when, in a journal whose readable lines chain up, only an unfinished line of the live
segment stands behind them. -/
theorem replay_failClosed_iff (fs : FS) (j : Journal) (r : Registry) :
    ((retraced_journal_replay fs j r).1 = 0 →
      (retraced_journal_replay fs j r).2.1.chain_broken_at = -1 → Verified 0 (replayed_files fs j)) ↔
    (ReadableChain 0 (replayed_files fs j) → OnlyTailUnread (replayed_files fs j)) := by
  by_cases hex : j.rotates = true ∨ fs j.path ≠ none
  · obtain ⟨hacc, hbroken⟩ := replay_accepts_iff hex
    constructor
    · intro hsafe hchain
      have hrc := hacc.mpr hchain
      exact (verified_iff hchain).mp (hsafe hrc (hbroken hrc))
    · intro htail hrc _
      have hchain := hacc.mp hrc
      exact (verified_iff hchain).mpr (htail hchain)
  · -- There is no journal: nothing is accepted, and nothing unread.
    simp only [not_or, Bool.not_eq_true, ne_eq, not_not] at hex
    obtain ⟨hrot, hnone⟩ := hex
    have hfiles : replayed_files fs j = [none] := by simp [replayed_files, hrot, hnone]
    have hrc : (retraced_journal_replay fs j r).1 = -1 := by
      have hrot0 : Journal.rotates { j with
        replay_ok := 0, replay_events := 0, chain_broken_at := -1, clean_close := false } = false := hrot
      simp [retraced_journal_replay, hrot0, hnone]
    rw [hfiles, hrc]
    refine ⟨fun _ _ => ⟨by simp, ?_⟩, fun _ h => absurd h (by decide)⟩
    simp [show unreadBytes [] = [] from rfl]

def fileOnly (content : Bytes) : FS := Function.update (fun _ => none) (bytes "j") (some content)

/-- Two lines that do not parse are accepted as a journal. -/
theorem replay_garbled_accepted :
    (retraced_journal_replay (fileOnly (bytes "x\ny\n")) (retraced_journal_open (bytes "j")) {}).1 = 0 ∧
      (retraced_journal_replay (fileOnly (bytes "x\ny\n"))
        (retraced_journal_open (bytes "j")) {}).2.1.chain_broken_at
        = -1 ∧
      ¬ Verified 0 (replayed_files (fileOnly (bytes "x\ny\n")) (retraced_journal_open (bytes "j"))) := by
  refine ⟨by decide, by decide, fun h => ?_⟩
  have hlines : Linked VerifiedLine lineLink 0 [bytes "x\n", bytes "y\n"] := h.lines
  have hsee : seeRecord (bytes "x\n") = .stop := by rfl
  have := hlines.1.2
  rw [hsee] at this
  cases this

end Retrace.Retraced
