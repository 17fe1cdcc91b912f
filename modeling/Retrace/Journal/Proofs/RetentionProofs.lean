import Retrace.Journal.Retention
import Retrace.Journal.Proofs.RotationProofs

/-!
# Retention is minimal and leaves records

The loop of `journal_retain` is followed round by round. It does what it is for as long as there is a
budget and the record of each segment it removes fits the buffer of 256 bytes; names that are long enough
to be cut, or to be those of two segments, do not fit there.
-/

namespace Retrace.Retraced

open CLib List

variable {p : Bytes} {cs ns : List Nat} {c k : Nat} {path : Path} {live : List Bytes} {n : Nat}

section

variable {fs : FS} {base : Bytes}

theorem total_size_cons : total_size fs base (n :: ns) = segment_size fs base n + total_size fs base ns := by
  simp [total_size]

theorem excess_fits (ns : List Nat) : total_size fs base (ns.drop (excess fs base budget ns)) ≤ budget := by
  induction ns with
  | nil => simp [total_size, excess]
  | cons n ns ih =>
    rw [excess]
    split_ifs with h
    · exact h
    · exact ih

theorem excess_least (hi : i < excess fs base budget ns) : budget < total_size fs base (ns.drop i) := by
  induction ns generalizing i with
  | nil => simp [excess] at hi
  | cons n ns ih =>
    rw [excess] at hi
    split_ifs at hi with h
    · omega
    · cases i with
      | zero => exact Nat.lt_of_not_le h
      | succ i => exact ih (by omega)

theorem eq_excess (hfits : total_size fs base (ns.drop k) ≤ budget)
    (hleast : ∀ i < k, budget < total_size fs base (ns.drop i)) : k = excess fs base budget ns := by
  rcases Nat.lt_trichotomy k (excess fs base budget ns) with h | h | h
  · exact absurd (excess_least h) (Nat.not_lt.mpr hfits)
  · exact h
  · exact absurd (hleast _ h) (Nat.not_lt.mpr (excess_fits ns))

end

theorem segment_size_of_not_exists (h : segment_exists fs base n = false) : segment_size fs base n = 0 := by
  rw [segment_exists, Option.isSome_eq_false_iff, Option.isNone_iff_eq_none] at h
  simp [segment_size, h]

theorem total_size_filter : total_size fs base (ns.filter (segment_exists fs base)) = total_size fs base ns := by
  induction ns with
  | nil => rfl
  | cons n ns ih =>
    by_cases h : segment_exists fs base n = true
    · rw [filter_cons_of_pos h, total_size_cons, total_size_cons, ih]
    · rw [filter_cons_of_neg h, total_size_cons, ih,
        segment_size_of_not_exists (Bool.eq_false_iff.mpr h), Nat.zero_add]

theorem find_segment : (range j.segment_seq).find? (segment_exists fs j.base) = (closed_segments fs j).head? := by
  rw [closed_segments, head?_filter]

theorem prune_next_nil (h : closed_segments fs j = []) : prune_next fs j = none := by
  have hlo : ∀ lo, retraced_journal_segment_lo fs j.base j.segment_seq = some lo → j.segment_seq ≤ lo := by
    intro lo hlo
    rw [retraced_journal_segment_lo, range_succ, find?_append, find_segment, h] at hlo
    simp only [head?_nil, Option.none_or] at hlo
    have := mem_of_find?_eq_some hlo
    simp at this
    omega
  rw [prune_next]
  cases hfind : retraced_journal_segment_lo fs j.base j.segment_seq with
  | none => rfl
  | some lo => simp only [if_pos (hlo lo hfind)]

theorem prune_next_cons (h : closed_segments fs j = c :: cs) :
    prune_next fs j =
      if total_size fs j.base (c :: cs) ≤ j.budget_bytes then none
      else (fs (segment_file j.base c)).map fun content => (c, content) := by
  have hfind : (range j.segment_seq).find? (segment_exists fs j.base) = some c := by
    rw [find_segment, h]
    rfl
  have hlo : retraced_journal_segment_lo fs j.base j.segment_seq = some c := by
    rw [retraced_journal_segment_lo, range_succ, find?_append, hfind]
    rfl
  have hlt : c < j.segment_seq := mem_range.mp (mem_of_find?_eq_some hfind)
  -- what exists below the live segment starts at `c`
  have hbytes : closed_bytes fs j c = total_size fs j.base (c :: cs) := by
    have hsplit : range j.segment_seq = range c ++ range' c (j.segment_seq - c) := by
      have happ := @range'_append_1 0 c (j.segment_seq - c)
      rw [Nat.zero_add, Nat.add_sub_cancel' hlt.le] at happ
      rw [range_eq_range', range_eq_range', happ]
    have hnone : (range c).filter (segment_exists fs j.base) = [] := by
      rw [filter_eq_nil_iff]
      intro m hm hex
      rw [segment_lo_eq_some] at hlo
      rw [hlo.2.2 m (mem_range.mp hm)] at hex
      exact absurd hex (by decide)
    have hrange : (range' c (j.segment_seq - c)).filter (segment_exists fs j.base) = c :: cs := by
      rw [← h, closed_segments, hsplit, filter_append, hnone, nil_append]
    rw [← hrange, total_size_filter]
    rfl
  rw [prune_next, hlo]
  simp only [if_neg (Nat.not_le.mpr hlt), hbytes]

structure Names (base : Bytes) (seq : Nat) (path : Path) : Prop where
  inj : ∀ m < seq, ∀ n < seq, segment_file base m = segment_file base n → m = n
  live : ∀ n < seq, segment_file base n ≠ path

theorem fmtNat4_length_le (hn : n < 2 ^ 31) : (fmtNat4 n).length ≤ 10 := by
  have : (fmtNat n).length ≤ 10 := fmtNat_length_le (by norm_num) (by omega)
  simp only [fmtNat4, length_append, length_replicate]
  omega

theorem segment_path_uncut (hb : base.length + 11 < cap) (hn : n < 2 ^ 31) :
    retraced_journal_segment_path base n cap = base ++ bytes "." ++ fmtNat4 n := by
  have hdot : (bytes ".").length = 1 := rfl
  have := fmtNat4_length_le hn
  exact snprintf_eq_self (by simp only [length_append, hdot]; omega)

theorem segment_name_inj (h : base ++ bytes "." ++ fmtNat4 m = base ++ bytes "." ++ fmtNat4 n) : m = n := by
  have := congrArg (digitsVal 10) (append_cancel_left h)
  rwa [digitsVal_fmtNat4, digitsVal_fmtNat4] at this

theorem LiveSegment.names (hl : LiveSegment fs j) (hn : n < j.segment_seq)
    (hfit : (prune_text fs j.base n).length < 256) : Names j.base j.segment_seq j.path := by
  have hseq := hl.seq_lt
  have hlen := hl.base_len
  have hfile : ∀ m < j.segment_seq, segment_file j.base m = j.base ++ bytes "." ++ fmtNat4 m :=
    fun m hm => segment_path_uncut (by omega) (by omega)
  have hnul : 0 ∉ segment_file j.base n := by
    rw [hfile n hn]
    simp only [mem_append, not_or]
    exact ⟨⟨hl.base_nul, by decide⟩, fun h => plainChar_ne_zero (fmtNat4_plain n 0 h) rfl⟩
  have hshort : j.base.length < 256 := by
    simp only [prune_text, segment_pruned_text, cstr_eq_self hnul, length_append] at hfit
    rw [hfile n hn] at hfit
    simp only [length_append] at hfit
    omega
  have hpath : j.path = j.base ++ bytes "." ++ fmtNat4 j.segment_seq := by
    rw [hl.path]
    exact segment_path_uncut (by omega) hseq
  refine ⟨fun a ha b hb h => ?_, fun a ha h => ?_⟩
  · rw [hfile a ha, hfile b hb] at h
    exact segment_name_inj h
  · rw [hfile a ha, hpath] at h
    exact absurd (segment_name_inj h) ha.ne

section

variable {fs : FS} {j : Journal}

theorem live_content_of_rep {live : List Bytes} (h : LiveRep fs j.path j.f live) :
    live_content fs j = live.flatten := by
  unfold live_content
  cases hf : j.f with
  | some f =>
    simp only [LiveRep, hf] at h
    simp [h.2]
  | none =>
    simp only [LiveRep, hf] at h
    rcases h with h | ⟨h, hnil⟩
    · simp [h]
    · simp [h, hnil]

theorem exists_liveRep (hl : LiveSegment fs j) : ∃ live, LiveRep fs j.path j.f live := by
  cases hf : j.f with
  | some f =>
    obtain ⟨hpath, hsome⟩ := hl.stream f hf
    obtain ⟨content, hcontent⟩ := Option.isSome_iff_exists.mp hsome
    exact ⟨[content ++ f.pending], hpath, by simp [FILE.full, hcontent]⟩
  | none =>
    cases hfile : fs j.path with
    | none => exact ⟨[], .inr ⟨hfile, rfl⟩⟩
    | some content => exact ⟨[content], .inl (by simp [hfile])⟩

theorem mem_closed (h : n ∈ closed_segments fs j) : n < j.segment_seq ∧ segment_exists fs j.base n = true := by
  rw [closed_segments, mem_filter, mem_range] at h
  exact h

theorem closed_after {j' : Journal} {c : Nat} {cs : List Nat}
    (hnames : Names j.base j.segment_seq j.path) (h : closed_segments fs j = c :: cs)
    (hother : ∀ p, p ≠ j.path → fs' p = removeFile fs (segment_file j.base c) p)
    (hbase : j'.base = j.base) (hseq : j'.segment_seq = j.segment_seq) :
    closed_segments fs' j' = cs ∧ ∀ n ∈ cs, fs' (segment_file j.base n) = fs (segment_file j.base n) := by
  have hc : c < j.segment_seq := (mem_closed (h ▸ mem_cons_self)).1
  have hnodup : (c :: cs).Nodup := h ▸ nodup_range.filter _
  have hfile : ∀ n < j.segment_seq, n ≠ c → fs' (segment_file j.base n) = fs (segment_file j.base n) := by
    intro n hn hne
    rw [hother _ (hnames.live n hn)]
    exact removeFile_other fun heq => hne (hnames.inj n hn c hc heq)
  have hexists : ∀ n ∈ range j.segment_seq,
      segment_exists fs' j.base n = (segment_exists fs j.base n && decide (n ≠ c)) := by
    intro n hn
    by_cases hne : n = c
    · subst hne
      simp [segment_exists, hother _ (hnames.live n hc), removeFile_self]
    · simp [segment_exists, hfile n (mem_range.mp hn) hne, hne]
  constructor
  · have hcs : ∀ n ∈ cs, decide (n ≠ c) = true := fun n hn => by
      simpa using fun heq : n = c => (nodup_cons.mp hnodup).1 (heq ▸ hn)
    rw [closed_segments, hbase, hseq, filter_congr hexists]
    have hsplit : (range j.segment_seq).filter (fun n => segment_exists fs j.base n && decide (n ≠ c)) =
        (closed_segments fs j).filter fun n => decide (n ≠ c) := by
      rw [closed_segments, filter_filter]
      exact filter_congr fun n _ => Bool.and_comm _ _
    rw [hsplit, h, filter_cons_of_neg (by simp), filter_eq_self.mpr hcs]
  · intro n hn
    exact hfile n (mem_closed (h ▸ mem_cons_of_mem c hn)).1
      fun heq => (nodup_cons.mp hnodup).1 (heq ▸ hn)

theorem append_record {live : List Bytes} (hrep : LiveRep w.fs j.path j.f live) {ts : Int64}
    {p line : Bytes} (hp : p.length < 512) (hline : journal_line ts daemon_id 0 j.prev_hash (some p) = line) :
    ∃ fs' f', journal_append_void w j ts daemon_id 0 (some p) = (⟨fs', w.written ++ [line]⟩, j.appended f' line) ∧
      LiveRep fs' j.path (some f') (live ++ [line]) ∧ ∀ q, q ≠ j.path → fs' q = w.fs q := by
  obtain ⟨fs', f', heq, hlive, hother⟩ := journal_append_eq hrep (daemon_line_fits ts j.prev_hash hp)
  rw [hline] at heq hlive
  exact ⟨fs', f', by rw [journal_append_void, heq]; rfl, hlive, hother⟩

theorem liveRep_exists (h : LiveRep fs path (some f) live) : (fs path).isSome = true := by
  obtain ⟨hpath, hfull⟩ := h
  rw [FILE.full, hpath] at hfull
  obtain ⟨content, hcontent, -⟩ := Option.map_eq_some_iff.mp hfull
  simp [hcontent]

end

def cut_texts (fs : FS) (base : Bytes) (ns : List Nat) : List Bytes :=
  ns.map fun n => snprintf 256 (prune_text fs base n)

theorem segment_pruned_text_eq {base content : Bytes} (h : fs (segment_file base n) = some content) :
    segment_pruned_text (segment_file base n) (Int64.ofNat content.length) = prune_text fs base n := by
  simp [prune_text, segment_size, h]

theorem retained_zero {w : World} {j : Journal}
    (h : total_size w.fs j.base (closed_segments w.fs j) ≤ j.budget_bytes) : Retained ts [] w j w j 0 where
  fits := h
  least := fun i hi => absurd hi (Nat.not_lt_zero i)
  removed := by simp
  others := fun _ _ _ => rfl
  same_seq := rfl
  same_path := rfl
  live_kept := id
  live := by simp [chained_lines]
  written := by simp [chained_lines]
  head := rfl

theorem liveRep_congr {f : Option FILE}
    (hsame : fs' path = fs path) (h : LiveRep fs path f live) : LiveRep fs' path f live := by
  cases f with
  | some f =>
    obtain ⟨hpath, hfull⟩ := h
    refine ⟨hpath, ?_⟩
    rw [← hfull, FILE.full, FILE.full, hpath, hsame]
  | none =>
    simp only [LiveRep] at h ⊢
    rwa [hsame]

theorem Retained.round {w w' : World} {j j' : Journal} {fs : FS}
    (hline : journal_line ts daemon_id 0 j.prev_hash (some p) = line)
    (hnames : Names j.base j.segment_seq j.path) (hclosed : closed_segments w.fs j = c :: cs)
    (hover : ¬ total_size w.fs j.base (c :: cs) ≤ j.budget_bytes) (hrep : LiveRep w.fs j.path j.f live)
    (hrep' : LiveRep fs j.path (some f) (live ++ [line]))
    (hother : ∀ q, q ≠ j.path → fs q = removeFile w.fs (segment_file j.base c) q)
    (h : Retained ts texts ⟨fs, w.written ++ [line]⟩ (j.appended f line) w' j' k) :
    Retained ts (p :: texts) w j w' j' (k + 1) := by
  obtain ⟨hcs, hfiles⟩ := @closed_after w.fs j fs (j.appended f line) c cs hnames hclosed hother rfl rfl
  have hc : c < j.segment_seq := (mem_closed (hclosed ▸ mem_cons_self)).1
  have hnodup : (c :: cs).Nodup := hclosed ▸ nodup_range.filter _
  have hsize : ∀ ns, ns <:+ cs → total_size fs j.base ns = total_size w.fs j.base ns := by
    intro ns hns
    rw [total_size, total_size, map_congr_left]
    intro n hn
    rw [segment_size, segment_size, hfiles n (hns.subset hn)]
  have hmem : ∀ n ∈ cs.take k, n < j.segment_seq ∧ n ≠ c := by
    intro n hn
    have hncs := mem_of_mem_take hn
    exact ⟨(mem_closed (hclosed ▸ mem_cons_of_mem c hncs)).1, fun heq => (nodup_cons.mp hnodup).1 (heq ▸ hncs)⟩
  have hfits := h.fits
  have hleast := h.least
  have hremoved := h.removed
  have hothers := h.others
  simp only [hcs] at hfits hleast hremoved hothers
  refine ⟨?_, fun i hi => ?_, fun n hn => ?_, fun q hq hne => ?_, h.same_seq, h.same_path, fun _ => ?_, ?_, ?_, ?_⟩
  · rw [hclosed, drop_succ_cons, ← hsize _ (drop_suffix k cs)]
    exact hfits
  · rw [hclosed]
    cases i with
    | zero => exact Nat.lt_of_not_le hover
    | succ i =>
      rw [drop_succ_cons, ← hsize _ (drop_suffix i cs)]
      exact hleast i (by omega)
  · rw [hclosed, take_succ_cons, mem_cons] at hn
    rcases hn with rfl | hn
    · refine (hothers _ (hnames.live n hc) fun m hm heq => ?_).trans ?_
      · exact (hmem m hm).2 (hnames.inj n hc m (hmem m hm).1 heq).symm
      · rw [hother _ (hnames.live n hc), removeFile_self]
    · exact hremoved n hn
  · rw [hclosed, take_succ_cons] at hne
    refine (hothers q hq fun n hn => hne n (mem_cons_of_mem c hn)).trans ?_
    rw [hother q hq]
    exact removeFile_other (hne c mem_cons_self)
  · exact h.live_kept (liveRep_exists hrep')
  · have hafter : live_content fs (j.appended f line) = live_content w.fs j ++ line := by
      rw [@live_content_of_rep fs (j.appended f line) _ hrep', live_content_of_rep hrep]
      simp
    rw [h.live, hafter, chained_lines, hline]
    simp [Journal.appended]
  · rw [h.written, chained_lines, hline]
    simp [Journal.appended]
  · rw [h.head, chained_lines, hline]
    simp [Journal.appended]

/-- The loop removes the shortest prefix, whatever the texts of the records come out as, and it stops
by itself. The induction is on the rounds: each one takes the oldest closed segment. -/
theorem retain_loop_retained (ts : Int64) (n : Nat) {w : World} {j : Journal}
    (hrep : LiveRep w.fs j.path j.f live) (hnames : Names j.base j.segment_seq j.path)
    (hn : (closed_segments w.fs j).length < n) :
    ∃ k, Retained ts (cut_texts w.fs j.base ((closed_segments w.fs j).take k)) w j
        (journal_retain_loop ts n w j).1 (journal_retain_loop ts n w j).2 k ∧
      prune_next (journal_retain_loop ts n w j).1.fs (journal_retain_loop ts n w j).2 = none := by
  induction n generalizing w j live with
  | zero => omega
  | succ n ih =>
    have hstop : prune_next w.fs j = none →
        total_size w.fs j.base (closed_segments w.fs j) ≤ j.budget_bytes →
        ∃ k, Retained ts (cut_texts w.fs j.base ((closed_segments w.fs j).take k)) w j
            (journal_retain_loop ts (n + 1) w j).1 (journal_retain_loop ts (n + 1) w j).2 k ∧
          prune_next (journal_retain_loop ts (n + 1) w j).1.fs (journal_retain_loop ts (n + 1) w j).2 =
            none := by
      intro hnone hfits
      have hend : journal_retain_loop ts (n + 1) w j = (w, j) := by simp [journal_retain_loop, hnone]
      rw [hend]
      exact ⟨0, retained_zero hfits, hnone⟩
    cases hclosed : closed_segments w.fs j with
    | nil =>
      rw [hclosed] at hstop
      exact hstop (prune_next_nil hclosed) (by simp [total_size])
    | cons c cs =>
      have hnext := prune_next_cons hclosed
      by_cases hfits : total_size w.fs j.base (c :: cs) ≤ j.budget_bytes
      · rw [if_pos hfits] at hnext
        rw [hclosed] at hstop
        exact hstop hnext hfits
      · obtain ⟨hc, hexists⟩ := mem_closed (hclosed ▸ mem_cons_self)
        obtain ⟨content, hcontent⟩ := Option.isSome_iff_exists.mp hexists
        rw [if_neg hfits, hcontent, Option.map_some] at hnext
        have hsame : removeFile w.fs (segment_file j.base c) j.path = w.fs j.path :=
          removeFile_other (hnames.live c hc).symm
        have hshort : (snprintf 256 (prune_text w.fs j.base c)).length < 512 :=
          snprintf_length_lt (by norm_num) (by norm_num) _
        obtain ⟨line, hline⟩ : ∃ line, journal_line ts daemon_id 0 j.prev_hash
          (some (snprintf 256 (prune_text w.fs j.base c))) = line := ⟨_, rfl⟩
        obtain ⟨fs', f', happ, hrep', hother⟩ := @append_record j
          { w with fs := removeFile w.fs (segment_file j.base c) } live (liveRep_congr hsame hrep) ts _ line
          hshort hline
        have hround : journal_retain_loop ts (n + 1) w j =
            journal_retain_loop ts n ⟨fs', w.written ++ [line]⟩ (j.appended f' line) := by
          simp only [journal_retain_loop, hnext, segment_pruned_text_eq hcontent, happ]
        obtain ⟨hcs, hfiles⟩ := @closed_after w.fs j fs' (j.appended f' line) c cs hnames hclosed hother rfl rfl
        have hless : (closed_segments fs' (j.appended f' line)).length < n := by
          rw [hcs]
          rw [hclosed] at hn
          simpa using hn
        obtain ⟨k, hk, hend⟩ := @ih _ ⟨fs', w.written ++ [line]⟩ (j.appended f' line) hrep' hnames hless
        rw [hround]
        refine ⟨k + 1, ?_, hend⟩
        have htexts : cut_texts fs' j.base (cs.take k) = cut_texts w.fs j.base (cs.take k) := by
          refine map_congr_left fun n hn => ?_
          rw [prune_text, prune_text, segment_size, segment_size, hfiles n (mem_of_mem_take hn)]
        rw [hcs] at hk
        rw [take_succ_cons, cut_texts, map_cons, ← cut_texts, ← htexts]
        exact hk.round hline hnames hclosed hfits hrep hrep' hother

theorem journal_line_payload {q : Bytes}
    (heq : journal_line ts daemon_id 0 h (some p) = journal_line ts daemon_id 0 h (some q)) : cstr p = cstr q := by
  simpa [journal_line] using heq

theorem chained_lines_payloads {ps qs : List Bytes}
    (heq : chained_lines ts h ps = chained_lines ts h qs) : ps.map cstr = qs.map cstr := by
  induction ps generalizing h qs with
  | nil =>
    cases qs with
    | nil => rfl
    | cons q qs => simp [chained_lines] at heq
  | cons p ps ih =>
    cases qs with
    | nil => simp [chained_lines] at heq
    | cons q qs =>
      rw [chained_lines, chained_lines, List.cons.injEq] at heq
      obtain ⟨hline, hrest⟩ := heq
      rw [hline] at hrest
      rw [map_cons, map_cons, journal_line_payload hline, ih hrest]

theorem prune_text_noNul (fs : FS) (base : Bytes) (n : Nat) : 0 ∉ prune_text fs base n := by
  have hsize : 0 ∉ fmtInt (Int64.ofNat (segment_size fs base n)).toInt := fun h =>
    plainChar_ne_zero (fmtInt_plain _ 0 h) rfl
  simp only [prune_text, segment_pruned_text, mem_append, not_or]
  exact ⟨⟨⟨⟨by decide, not_mem_zero_cstr _⟩, by decide⟩, hsize⟩, by decide⟩

theorem prune_text_fits {fs : FS} {base : Bytes}
    (h : cstr (snprintf 256 (prune_text fs base n)) = cstr (prune_text fs base n)) :
    (prune_text fs base n).length < 256 := by
  have hnul := prune_text_noNul fs base n
  rw [cstr_eq_self (not_mem_zero_snprintf hnul 256), cstr_eq_self hnul] at h
  have := snprintf_length_le 256 (prune_text fs base n)
  rw [h] at this
  omega

theorem append_record_written (w : World) (j : Journal) (p : Bytes) (hp : p.length < 512) :
    (journal_append_void w j ts daemon_id 0 (some p)).1.written =
      w.written ++ [journal_line ts daemon_id 0 j.prev_hash (some p)] := by
  rw [journal_append_void]
  rcases journal_append_cases w j ts daemon_id 0 (some p) with ⟨-, hlong⟩ | ⟨fs', f', h, -⟩
  · exact absurd (daemon_line_fits ts j.prev_hash hp) (Nat.not_lt.mpr hlong)
  · rw [h]
    rfl

theorem retain_loop_some (n : Nat) {w : World} {j : Journal} {lo : Nat} {content : Bytes}
    (h : prune_next w.fs j = some (lo, content)) :
    ∃ w' j', journal_retain_loop ts (n + 1) w j = journal_retain_loop ts n w' j' ∧
      w'.written = w.written ++ [journal_line ts daemon_id 0 j.prev_hash (some (snprintf 256
        (segment_pruned_text (segment_file j.base lo) (Int64.ofNat content.length))))] := by
  have hshort : (snprintf 256 (segment_pruned_text (segment_file j.base lo)
      (Int64.ofNat content.length))).length < 512 := snprintf_length_lt (by norm_num) (by norm_num) _
  refine ⟨_, _, by simp only [journal_retain_loop, h]; rfl, ?_⟩
  exact append_record_written { w with fs := removeFile w.fs (segment_file j.base lo) } j _ hshort

theorem written_prefix_loop (n : Nat) (w : World) (j : Journal) :
    w.written <+: (journal_retain_loop ts n w j).1.written := by
  induction n generalizing w j with
  | zero => exact prefix_refl _
  | succ n ih =>
    cases hnext : prune_next w.fs j with
    | none =>
      simp only [journal_retain_loop, hnext]
      exact prefix_refl _
    | some next =>
      obtain ⟨w', j', hround, hwritten⟩ := @retain_loop_some ts n w j next.1 next.2 hnext
      rw [hround]
      refine List.IsPrefix.trans ?_ (ih w' j')
      rw [hwritten]
      exact prefix_append _ _

theorem written_first {n : Nat} {w : World} {j : Journal} {c : Nat} {cs : List Nat}
    (hclosed : closed_segments w.fs j = c :: cs) (hover : ¬ total_size w.fs j.base (c :: cs) ≤ j.budget_bytes) :
    w.written ++ [journal_line ts daemon_id 0 j.prev_hash (some (snprintf 256 (prune_text w.fs j.base c)))] <+:
      (journal_retain_loop ts (n + 1) w j).1.written := by
  obtain ⟨-, hexists⟩ := mem_closed (hclosed ▸ mem_cons_self)
  obtain ⟨content, hcontent⟩ := Option.isSome_iff_exists.mp hexists
  have hnext := prune_next_cons hclosed
  rw [if_neg hover, hcontent, Option.map_some] at hnext
  obtain ⟨w', j', hround, hwritten⟩ := @retain_loop_some ts n w j c content hnext
  rw [segment_pruned_text_eq hcontent] at hwritten
  rw [hround, ← hwritten]
  exact written_prefix_loop n w' j'

/-- `journal_retain` does what it is for: with the whole text in each record, and to the end. -/
def RetainsRight (ts : Int64) (w : World) (j : Journal) : Prop :=
  ∃ k, Retained ts (((closed_segments w.fs j).take k).map (prune_text w.fs j.base)) w j
      (journal_retain w j ts).1 (journal_retain w j ts).2 k ∧
    (j.budget_bytes ≠ 0 → prune_next (journal_retain w j ts).1.fs (journal_retain w j ts).2 = none)

section

variable {ts : Int64} {w : World} {j : Journal}

theorem closed_length_lt : (closed_segments fs j).length < j.segment_seq + 1 := by
  have := length_filter_le (segment_exists fs j.base) (range j.segment_seq)
  rw [length_range] at this
  exact Nat.lt_succ_of_le this

theorem retain_of_fits (h : total_size w.fs j.base (closed_segments w.fs j) ≤ j.budget_bytes) :
    journal_retain w j ts = (w, j) ∧ prune_next w.fs j = none := by
  have hnone : prune_next w.fs j = none := by
    cases hclosed : closed_segments w.fs j with
    | nil => exact prune_next_nil hclosed
    | cons c cs =>
      rw [hclosed] at h
      rw [prune_next_cons hclosed, if_pos h]
  refine ⟨?_, hnone⟩
  unfold journal_retain
  split_ifs
  · rfl
  · simp [journal_retain_loop, hnone]

theorem surplus_cons (h : surplus w.fs j ≠ []) : ∃ c cs, closed_segments w.fs j = c :: cs ∧ c ∈ surplus w.fs j ∧
      ¬ total_size w.fs j.base (c :: cs) ≤ j.budget_bytes := by
  unfold surplus at h ⊢
  cases hclosed : closed_segments w.fs j with
  | nil => simp [hclosed] at h
  | cons c cs =>
    rw [hclosed, excess] at h
    split_ifs at h with hfits
    · simp at h
    · refine ⟨c, cs, rfl, ?_, hfits⟩
      rw [excess, if_neg hfits, take_succ_cons]
      exact mem_cons_self

theorem fits_of_surplus_nil (h : surplus w.fs j = []) :
    total_size w.fs j.base (closed_segments w.fs j) ≤ j.budget_bytes := by
  have hfits := @excess_fits w.fs j.base j.budget_bytes (closed_segments w.fs j)
  rcases take_eq_nil_iff.mp h with hzero | hnil
  · rwa [hzero, drop_zero] at hfits
  · simp [hnil, total_size]

def RecordsFit (fs : FS) (j : Journal) : Prop :=
  (j.budget_bytes = 0 → surplus fs j = []) ∧ ∀ n ∈ surplus fs j, (prune_text fs j.base n).length < 256

instance (fs : FS) (j : Journal) : Decidable (RecordsFit fs j) :=
  inferInstanceAs (Decidable (_ ∧ _))

theorem retainsRight_of_recordsFit (hl : LiveSegment w.fs j) (hfit : RecordsFit w.fs j) : RetainsRight ts w j := by
  by_cases hnil : surplus w.fs j = []
  · have hfits := fits_of_surplus_nil hnil
    obtain ⟨heq, hnone⟩ := @retain_of_fits ts w j hfits
    refine ⟨0, ?_, fun _ => ?_⟩
    · rw [heq]
      exact retained_zero hfits
    · rw [heq]
      exact hnone
  · obtain ⟨c, cs, hclosed, hc, hover⟩ := surplus_cons hnil
    have hbudget : j.budget_bytes ≠ 0 := fun h => hnil (hfit.1 h)
    have hnames := hl.names (mem_closed (hclosed ▸ mem_cons_self)).1 (hfit.2 c hc)
    obtain ⟨live, hrep⟩ := exists_liveRep hl
    obtain ⟨k, hk, hend⟩ := retain_loop_retained ts (j.segment_seq + 1) hrep hnames closed_length_lt
    have hretain : journal_retain w j ts = journal_retain_loop ts (j.segment_seq + 1) w j := if_neg hbudget
    have hkeq := eq_excess hk.fits hk.least
    have htexts : cut_texts w.fs j.base ((closed_segments w.fs j).take k) =
        ((closed_segments w.fs j).take k).map (prune_text w.fs j.base) := by
      refine map_congr_left fun n hn => snprintf_eq_self (hfit.2 n ?_)
      rwa [surplus, ← hkeq]
    rw [htexts] at hk
    refine ⟨k, ?_, fun _ => ?_⟩
    · rw [hretain]
      exact hk
    · rw [hretain]
      exact hend

theorem recordsFit_of_retainsRight (hl : LiveSegment w.fs j) (h : RetainsRight ts w j) : RecordsFit w.fs j := by
  obtain ⟨k, hk, -⟩ := h
  have hkeq := eq_excess hk.fits hk.least
  have hsurplus : surplus w.fs j = (closed_segments w.fs j).take k := by rw [surplus, ← hkeq]
  by_cases hnil : surplus w.fs j = []
  · exact ⟨fun _ => hnil, by simp [hnil]⟩
  obtain ⟨c, cs, hclosed, hc, hover⟩ := surplus_cons hnil
  have hbudget : j.budget_bytes ≠ 0 := by
    intro hzero
    have hnone := hk.removed c (hsurplus ▸ hc)
    rw [show journal_retain w j ts = (w, j) from if_pos hzero] at hnone
    have hexists := (mem_closed (hclosed ▸ mem_cons_self)).2
    rw [segment_exists, hnone] at hexists
    exact absurd hexists (by decide)
  have hretain : journal_retain w j ts = journal_retain_loop ts (j.segment_seq + 1) w j := if_neg hbudget
  refine ⟨fun hzero => absurd hzero hbudget, ?_⟩
  have hwritten := hk.written
  rw [hretain, ← hsurplus] at hwritten
  -- The first record was not cut, so the names are short.
  have hfirst : (prune_text w.fs j.base c).length < 256 := by
    obtain ⟨rest, hrest⟩ : ∃ rest, surplus w.fs j = c :: rest := by
      rw [hsurplus, hclosed] at hc ⊢
      cases k with
      | zero => simp at hc
      | succ k => exact ⟨_, take_succ_cons⟩
    obtain ⟨more, hmore⟩ := @written_first ts j.segment_seq w j c cs hclosed hover
    rw [hwritten, hrest, map_cons, chained_lines, append_assoc, append_cancel_left_eq,
      singleton_append, List.cons.injEq] at hmore
    exact prune_text_fits (journal_line_payload hmore.1)
  have hnames := hl.names (mem_closed (hclosed ▸ mem_cons_self)).1 hfirst
  obtain ⟨live, hrep⟩ := exists_liveRep hl
  obtain ⟨k', hk', -⟩ := retain_loop_retained ts (j.segment_seq + 1) hrep hnames closed_length_lt
  have hkeq' := eq_excess hk'.fits hk'.least
  have hwritten' := hk'.written
  rw [hwritten, hkeq', ← hkeq, ← hsurplus, append_cancel_left_eq] at hwritten'
  have htexts := chained_lines_payloads hwritten'
  rw [cut_texts, map_map, map_map, map_inj_left] at htexts
  exact fun n hn => prune_text_fits (htexts n hn).symm

end

/-- Retention removes the shortest prefix of the closed segments that makes the others fit, with one whole
record for each in the live segment, exactly when there is a budget (or nothing to remove) and the records
of the segments that have to go fit their buffer. -/
theorem retains_right_iff (ts : Int64) (w : World) (j : Journal) (hl : LiveSegment w.fs j) :
    RetainsRight ts w j ↔ RecordsFit w.fs j :=
  ⟨recordsFit_of_retainsRight hl, retainsRight_of_recordsFit hl⟩

/-- A journal with the name `base` and a budget of 15 bytes whose live segment has the number 2. -/
def smallJournal (base : Bytes) : Journal :=
  { path := retraced_journal_segment_path base 2 512, base := base, budget_bytes := 15, segment_seq := 2,
    rotating := true }

def smallFiles (base : Bytes) : FS := fun p =>
  if p = segment_file base 0 ∨ p = segment_file base 1 then some (replicate 10 newline) else none

theorem liveSegment_small (hlen : base.length < 512) (hnul : 0 ∉ base) :
    LiveSegment (smallFiles base) (smallJournal base) where
  base_len := hlen
  base_nul := hnul
  seq_lt := show 2 < 2 ^ 31 by norm_num
  path := rfl
  stream := fun _ h => absurd h (Option.not_mem_none _)

theorem retains_right_small : RetainsRight 0 ⟨smallFiles (bytes "j"), []⟩ (smallJournal (bytes "j")) :=
  (retains_right_iff 0 ⟨smallFiles (bytes "j"), []⟩ (smallJournal (bytes "j"))
    (liveSegment_small (by decide) (by decide))).mpr (by decide)

/-- A base name of 200 bytes: the record of the removed segment is cut. -/
theorem not_retains_right :
    ¬ RetainsRight 0 ⟨smallFiles (replicate 200 97), []⟩ (smallJournal (replicate 200 97)) := fun h =>
  absurd (recordsFit_of_retainsRight (liveSegment_small (by rw [length_replicate]; norm_num)
    fun h => absurd (eq_of_mem_replicate h) (by decide)) h) (by decide +kernel)

end Retrace.Retraced
