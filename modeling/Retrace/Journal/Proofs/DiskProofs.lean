import Retrace.Journal.Crash
import Retrace.Journal.Proofs.RestartProofs
import Retrace.Journal.Proofs.EvidenceProofs

/-!
# What a crash leaves on disk

At every point of an event the writer's state holds a series. What is on disk of it is a series again,
with the beginning of its records and perhaps a torn line behind them, or nothing at all.
-/

namespace Retrace.Retraced

open CLib Parson HashChain Runs List Option

variable {h : UInt64}

theorem retained_at_spec (hrep : Rep w.fs j S) (hclean : CleanBase j) (hrot : j.rotates = true)
    (ts : Int64) (rounds : Nat) :
    ∃ S', Keeps w j S (retained_at w j ts rounds).1 (retained_at w j ts rounds).2 S' := by
  unfold retained_at
  split_ifs with h
  · exact ⟨S, .refl hrep⟩
  · exact retain_loop_spec ts rounds hrep hclean hrot h

theorem prune_file_spec (hrep : Rep w.fs j S) : ∃ S', Keeps w j S (prune_file w j).1 (prune_file w j).2 S' := by
  unfold prune_file
  split
  · exact ⟨S, .refl hrep⟩
  · rename_i lo content hnext
    split_ifs at hnext with h
    exact (prune_next_spec hrep h hnext).2

theorem rotate_at_spec (hrep : Rep w.fs j S) (hclean : CleanBase j) (hrot : j.rotates = true)
    (hseq : j.segment_seq + 1 < 10000) (ts : Int64) (p : Point) :
    ∃ S', Keeps w j S (rotate_at w j ts p).1 (rotate_at w j ts p).2 S' := by
  obtain ⟨S2, hnext⟩ := rotate_next_spec hrep hclean hrot hseq ts
  have hretained := retained_at_spec hnext.rep (hnext.same.cleanBase hclean)
    (hnext.same.rotates.trans hrot) ts
  cases p with
  | before | appended => exact ⟨S, .refl hrep⟩
  | closing =>
    obtain ⟨S', -, h, -⟩ := rotate_closing_spec hrep hclean hrot hseq ts
    exact ⟨S', h⟩
  | rolled => exact ⟨S2, hnext⟩
  | pruned rounds =>
    obtain ⟨S3, h3⟩ := hretained rounds
    exact ⟨S3, hnext.trans h3⟩
  | pruning rounds =>
    obtain ⟨S3, h3⟩ := hretained rounds
    obtain ⟨S4, h4⟩ := prune_file_spec h3.rep
    exact ⟨S4, (hnext.trans h3).trans h4⟩
  | done =>
    obtain ⟨S', h, -⟩ := rotate_spec hrep hclean hrot hseq ts
    exact ⟨S', h⟩

theorem event_at_spec (hrep : Rep w.fs j S) (hclean : CleanBase j) (ts : Int64)
    (seq : UInt64) (ha : Plain agent_id) (hp : PayloadOk payload)
    (hseq : (retraced_journal_event w j ts agent_id seq payload).2.2.segment_seq < 10000) (p : Point) :
    ∃ S', Keeps w j S (event_at w j ts agent_id seq payload p).1
      (event_at w j ts agent_id seq payload p).2 S' := by
  by_cases hfit : (journal_line ts agent_id seq j.prev_hash payload).length < 2048
  · obtain ⟨fs', f', l, hl, heq, happ⟩ := Keeps.append hrep ha hp hfit
    by_cases hdue : (j.appended f' l).due ts = true
    · have hrot : j.rotates = true := by
        simp only [Journal.due, Bool.and_eq_true] at hdue
        exact hdue.1.2
      simp only [retraced_journal_event, heq, if_pos hdue, rotate_segment_seq] at hseq
      obtain ⟨S', hS'⟩ := rotate_at_spec happ.rep (happ.same.cleanBase hclean) hrot hseq ts p
      cases p with
      | before => exact ⟨S, .refl hrep⟩
      | _ =>
        simp only [event_at, heq, if_pos hdue]
        exact ⟨S', happ.trans hS'⟩
    · cases p with
      | before => exact ⟨S, .refl hrep⟩
      | _ =>
        simp only [event_at, heq, if_neg hdue]
        exact ⟨_, happ⟩
  · have hnone : journal_append w j ts agent_id seq payload = none := by
      simp [journal_append, Nat.not_lt.mp hfit]
    cases p <;> exact ⟨S, by simp only [event_at, hnone]; exact .refl hrep⟩

namespace Series

variable (S : Series)

theorem live_linked : Linked RecordLine lineLink (headOf lineLink S.genesis S.closed.flatten) S.live :=
  ((linked_append _ _ _).mp S.linked).2

def cut (k : Nat) : Series where
  lo := S.lo
  genesis := S.genesis
  closed := S.closed
  live := S.live.take k
  linked := by
    have h := S.linked
    rw [← take_append_drop k S.live, ← append_assoc, linked_append] at h
    exact h.1
  closed_ne := S.closed_ne

theorem cut_lines_prefix (k : Nat) : (S.cut k).lines <+: S.lines :=
  (prefix_append_right_inj _).mpr <| take_prefix k S.live

def unroll (cs : List (List Bytes)) (c : List Bytes) (h : S.closed = cs ++ [c]) (hlive : S.live = []) :
    Series where
  lo := S.lo
  genesis := S.genesis
  closed := cs
  live := c
  linked := by
    have hl := S.linked
    rw [h, hlive, append_nil, flatten_append] at hl
    simpa using hl
  closed_ne := fun x hx => S.closed_ne x (h ▸ mem_append_left _ hx)

end Series

def Absent (fs : FS) (base : Bytes) (rotates : Bool) : Prop :=
  if rotates then ∀ n, fs (segment_file base n) = none else fs base = none

def HoldsPart (fs : FS) (base : Bytes) (rotates : Bool) (S : Series) : Prop :=
  Absent fs base rotates ∨
    ∃ S' part, Stored fs base rotates S' part ∧ S'.lo = S.lo ∧ S'.genesis = S.genesis ∧
      S'.seq ≤ S.seq ∧ S'.lines <+: S.lines

section

variable {s : Session}

theorem Rep.disk_other (hrep : Rep s.w.fs s.j S) (hp : p ≠ s.j.path) : s.disk n p = s.w.fs p := by
  have hlive := hrep.live
  cases hf : s.j.f with
  | none => simp only [Session.disk, hf]
  | some f =>
    simp only [LiveRep, hf] at hlive
    simp only [Session.disk, hf]
    exact spill_other (hlive.1.symm ▸ hp)

theorem Rep.disk_begins (hrep : Rep s.w.fs s.j S) (n : Nat) : (s.disk n s.j.path).getD [] <+: S.live.flatten := by
  have hlive := hrep.live
  cases hf : s.j.f with
  | none =>
    simp only [LiveRep, hf] at hlive
    simp only [Session.disk, hf]
    rcases hlive with h | ⟨h, -⟩ <;> simp [h]
  | some f =>
    simp only [LiveRep, hf] at hlive
    obtain ⟨hpath, hfull⟩ := hlive
    simp only [Session.disk, hf, ← hpath, FILE.spill, Function.update_self]
    obtain ⟨d, hd, hfull⟩ := map_eq_some_iff.mp hfull
    rw [hd, ← hfull]
    exact (prefix_append_right_inj d).mpr <| take_prefix n f.pending

theorem Rep.live_eq_nil (hrep : Rep s.w.fs s.j S) (hnone : s.disk n s.j.path = none) : S.live = [] := by
  have hlive := hrep.live
  cases hf : s.j.f with
  | none =>
    simp only [LiveRep, hf] at hlive
    simp only [Session.disk, hf] at hnone
    simpa [hnone] using hlive
  | some f =>
    simp only [LiveRep, hf] at hlive
    simp only [Session.disk, hf, ← hlive.1, FILE.spill, Function.update_self, map_eq_none_iff]
      at hnone
    simp [FILE.full, hnone] at hlive

theorem Rep.holdsPart (hrep : Rep s.w.fs s.j S) : HoldsPart (s.disk n) s.j.base s.j.rotates S := by
  have hpath := hrep.path
  rw [Journal.liveFile, hrep.seq] at hpath
  have hother : ∀ m, m ≠ S.seq → s.disk n (segment_file s.j.base m) = s.w.fs (segment_file s.j.base m) :=
    fun m hm => hrep.disk_other (hrep.path_ne hm)
  have hclosed : ∀ i ls, S.closed[i]? = some ls →
      s.disk n (segment_file s.j.base (S.lo + i)) = some ls.flatten := fun i ls hi => by
    have hlt : i < S.closed.length := (List.getElem?_eq_some_iff.mp hi).1
    rw [hother _ (by simp only [Series.seq]; omega), hrep.closed i ls hi]
  have habsent : ∀ m, m < S.lo ∨ S.seq < m → s.disk n (segment_file s.j.base m) = none := fun m hm => by
    have hlo := S.lo_le_seq
    rw [hother m (by omega), hrep.absent m hm]
  cases hdisk : s.disk n s.j.path with
  | some d =>
    -- The live segment is there, up to some byte of its records.
    have hpre := hrep.disk_begins n
    rw [hdisk, getD_some] at hpre
    have hlines : ∀ l ∈ S.live, IsLine 2048 l := fun l hm => by
      obtain ⟨h', hr⟩ := S.live_linked.ok_of_mem hm
      exact hr.isLine
    obtain ⟨k, part, rfl, hnl, hlen⟩ := exists_take_of_prefix hlines hpre
    refine .inr ⟨S.cut k, part, ⟨hrep.base_len, hrep.base_short, hrep.seq ▸ hrep.seq_lt, hrep.single,
      hclosed, habsent, ?_, hnl, ?_⟩, rfl, rfl, le_rfl, S.cut_lines_prefix k⟩
    · rw [hpath] at hdisk
      exact hdisk
    · by_cases hp : part = []
      · simp [hp]
      · exact hlen hp
  | none =>
    have hlive := hrep.live_eq_nil hdisk
    rcases eq_nil_or_concat' S.closed with hnil | ⟨cs, c, hc⟩
    · -- Nothing was written yet.
      left
      rw [Absent]
      have hseq : S.seq = S.lo := by simp [Series.seq, hnil]
      split_ifs with hrot
      · intro m
        by_cases hm : m = S.seq
        · rw [hm]
          simpa [hpath, hrot] using hdisk
        · exact habsent m (by omega)
      · simpa [hpath, hrot] using hdisk
    · -- The last segment that was closed is the last one there is.
      have hlen : S.closed.length = cs.length + 1 := by simp [hc]
      have hrot : s.j.rotates = true := by
        by_contra hcon
        have := hrep.single (Bool.eq_false_iff.mpr hcon)
        simp only [Series.seq] at this
        omega
      have hlt := hrep.seq ▸ hrep.seq_lt
      have hseq : (S.unroll cs c hc hlive).seq + 1 = S.seq := by
        simp only [Series.seq, Series.unroll]
        omega
      refine .inr ⟨S.unroll cs c hc hlive, [], ⟨hrep.base_len, hrep.base_short, by omega,
        fun h => absurd h (by simp [hrot]), fun i ls hi => ?_, fun m hm => ?_, ?_, torn_nil⟩, rfl,
          rfl, by omega, ?_⟩
      · refine hclosed i ls ?_
        have hi' : cs[i]? = some ls := hi
        rw [hc, getElem?_append_left (List.getElem?_eq_some_iff.mp hi').1, hi']
      · by_cases hm' : m = S.seq
        · rw [hm']
          simpa [hpath, hrot] using hdisk
        · exact habsent m (by rcases hm with h | h; exacts [.inl h, .inr (by omega)])
      · rw [if_pos hrot, append_nil]
        exact hclosed cs.length c (by simp [hc])
      · simp [Series.lines, Series.unroll, hc, hlive]

end

theorem completeLines_records (hl : Linked RecordLine lineLink h ls) (hnl : newline ∉ part) :
    completeLines (ls.flatten ++ part) = ls := by
  have hlines : ∀ l ∈ ls, IsLine 2048 l := fun l hm => by
    obtain ⟨h', hr⟩ := hl.ok_of_mem hm
    exact hr.isLine
  rw [(completeLines_append hlines part).1, completeLines_of_not_mem hnl, append_nil]

theorem flatMap_segments {fs : FS} (hnl : newline ∉ part) (segs : List (List Bytes)) (lo : Nat)
    (hfiles : ∀ i ls, segs[i]? = some ls → fs (segment_file base (lo + i)) =
      some (ls.flatten ++ if i + 1 = segs.length then part else []))
        (hl : Linked RecordLine lineLink h segs.flatten) :
    ((range' lo segs.length).flatMap fun n => completeLines ((fs (segment_file base n)).getD [])) =
      segs.flatten := by
  induction segs generalizing lo h with
  | nil => rfl
  | cons seg segs ih =>
    rw [flatten_cons, linked_append] at hl
    have hfirst := hfiles 0 seg rfl
    have hpart : newline ∉ if 0 + 1 = (seg :: segs).length then part else [] := by
      split_ifs
      · exact hnl
      · simp
    have hrest := ih (lo + 1) (fun i ls hi => by
      have := hfiles (i + 1) ls hi
      rwa [length_cons, Nat.add_comm i 1, ← Nat.add_assoc, Nat.add_comm 1 i,
        if_congr Nat.add_right_cancel_iff rfl rfl] at this) hl.2
    rw [Nat.add_zero] at hfirst
    rw [length_cons, range'_succ, flatMap_cons, hrest, hfirst, getD_some,
      completeLines_records hl.1 hpart, flatten_cons]

theorem lastLine_stored (hst : Stored fs j.base j.rotates S part) (hpath : j.path = j.liveFile)
    (hle : S.seq ≤ j.segment_seq) : lastLine fs j = S.lines.getLast? := by
  have hlo := S.lo_le_seq
  rw [lastLine, replayed_files]
  congr 1
  cases hrot : j.rotates with
  | true =>
    rw [hrot] at hst
    have hcount : j.segment_seq + 1 - S.lo =
        (S.closed ++ [S.live]).length + (j.segment_seq - S.seq) := by
      simp only [Series.seq, length_append, length_singleton] at *
      omega
    have hlinked : Linked RecordLine lineLink S.genesis (S.closed ++ [S.live]).flatten := by
      rw [S.segments_flatten]
      exact S.linked
    -- Behind the last segment of the series there is nothing.
    have hbehind : (range' (S.lo + (S.closed ++ [S.live]).length) (j.segment_seq - S.seq)).flatMap
        (fun n => completeLines ((fs (segment_file j.base n)).getD [])) = [] := by
      rw [flatMap_eq_nil_iff]
      intro n hn
      have hlt : S.seq < n := by
        have := (mem_range'_1.mp hn).1
        simp only [Series.seq, length_append, length_singleton] at *
        omega
      rw [hst.absent n (.inr hlt)]
      rfl
    simp only [if_true, hst.segment_lo (hlo.trans hle), hcount, flatMap_map]
    rw [← range'_append_1, flatMap_append, hbehind, append_nil,
      flatMap_segments hst.torn.1 _ _ (fun i ls => hst.files) hlinked, S.segments_flatten]
  | false =>
    rw [hrot] at hst
    have hseq := hst.single rfl
    have hnil : S.closed = [] := length_eq_zero_iff.mp (by simp only [Series.seq] at hseq; omega)
    have hlive := hst.live
    simp only [Journal.liveFile, hrot, Bool.false_eq_true, if_false] at hpath hlive ⊢
    rw [hpath, hlive, flatMap_singleton, getD_some, completeLines_records S.live_linked hst.torn.1,
      Series.lines, hnil]
    rfl

theorem lastLine_absent (habs : Absent fs j.base j.rotates) (hpath : j.path = j.liveFile) :
    lastLine fs j = none := by
  rw [lastLine, replayed_files]
  rw [Absent] at habs
  split_ifs at habs ⊢ with hrot
  · have hnone : retraced_journal_segment_lo fs j.base j.segment_seq = none := by
      simp [retraced_journal_segment_lo, segment_exists, habs]
    simp [hnone]
  · rw [Journal.liveFile, if_neg hrot] at hpath
    simp [hpath, habs, completeLines, linesFrom]

def toldClean (l : Option Bytes) : Bool := (l.map closes).getD false

theorem foldl_cleanAfter (hl : Linked RecordLine lineLink h ls) :
    ls.foldl cleanAfter false = toldClean ls.getLast? := by
  rcases eq_nil_or_concat' ls with rfl | ⟨init, l, rfl⟩
  · rfl
  · obtain ⟨h', hr⟩ := hl.ok_of_mem (l := l) (by simp)
    have hc : cstr l = l := cstr_eq_self hr.noNul
    simp [cleanAfter, toldClean, closes, hc, hr.isLine.getLast?]

theorem Stored.genesis_eq (hst : Stored fs base true S part)
    (hlink : segment_first_link fs base S.lo = some (.link v)) : S.genesis = v := by
  obtain ⟨seg, rest, hsegs⟩ : ∃ seg rest, S.closed ++ [S.live] = seg :: rest := by
    cases S.closed <;> simp
  have hhead : (S.closed ++ [S.live])[0]? = some seg := by rw [hsegs]; rfl
  have hfile := hst.files hhead
  have hlinked := S.linked_first hsegs
  have htorn : Torn (if 0 + 1 = (S.closed ++ [S.live]).length then part else []) := by
    split_ifs
    · exact hst.torn
    · exact torn_nil
  generalize (if 0 + 1 = (S.closed ++ [S.live]).length then part else []) = tail at *
  rw [Nat.add_zero] at hfile
  rw [segment_first_link, hfile, bind_some, chunks_torn hlinked htorn] at hlink
  cases seg with
  | nil =>
    split_ifs at hlink with h
    · simp at hlink
    · simp [seeRecord_torn htorn.1] at hlink
  | cons l ls => simpa [hlinked.1.record] using hlink

theorem Stored.replayable (hst : Stored fs base rotates S part) (hstart : StartsFromZero fs base)
    (hzero : S.lo = 0 → S.genesis = 0) : S.lo ≤ 1 ∧ S.genesis = 0 := by
  have hle := S.lo_le_seq
  cases rotates with
  | false =>
    have := hst.single rfl
    exact ⟨by omega, hzero (by omega)⟩
  | true =>
    have := hst.seq_lt
    rcases hstart S.lo (hst.segment_lo (by omega)) with h0 | ⟨h1, hlink⟩
    · exact ⟨by omega, hzero h0⟩
    · exact ⟨by omega, hst.genesis_eq (by rw [h1]; exact hlink)⟩

theorem boot_clean_stored (hst : Stored w.fs (journal_base path) rot.enabled S part)
    (hstart : StartsFromZero w.fs (journal_base path)) (hzero : S.lo = 0 → S.genesis = 0)
    (hns : S.genesis = 0 → NoSentinel S.lines) (now : Int64) :
    (journal_boot path w rot now).j.clean_close = toldClean S.lines.getLast? := by
  obtain ⟨hlo, hgen⟩ := hst.replayable hstart hzero
  rw [(boot_reads_back hst hlo hgen (hns hgen) now).1.clean,
    foldl_cleanAfter (show Linked _ _ _ S.lines from S.linked)]

theorem boot_clean_absent (habs : Absent w.fs (journal_base path) rot.enabled) (now : Int64) :
    (journal_boot path w rot now).j.clean_close = false := by
  rw [Absent] at habs
  split_ifs at habs with hrot
  · have hnone : ∀ hi, retraced_journal_segment_lo w.fs (journal_base path) hi = none := fun hi => by
      simp [retraced_journal_segment_lo, segment_exists, habs]
    rw [journal_boot_rotating hrot now rfl, hnone]
    rfl
  · rw [journal_boot_single (Bool.eq_false_iff.mpr hrot) now, if_pos (by rw [habs]; rfl)]
    rfl

theorem NoSentinel.mono (h : NoSentinel ls) (hp : ls' <+: ls) : NoSentinel ls' := by
  intro k
  have := h (min k ls'.length)
  rwa [← take_take, ← prefix_iff_eq_take.mp hp] at this

theorem boot_clean_crashed {s : Session} (hrep : Rep s.w.fs s.j S) (hkept : Kept s.w S)
    (hbase : s.j.base = journal_base path) (hrot : s.j.rotates = rot.enabled)
    (hstart : StartsFromZero (s.disk n) (journal_base path)) (hns : NoSentinel s.w.written) (now : Int64) :
    (journal_boot path ⟨s.disk n, ls⟩ rot now).j.clean_close = toldClean (lastLine (s.disk n) s.j) := by
  rcases hrep.holdsPart with habs | ⟨S', part, hst, hlo, hgen, hseq, hpre⟩
  · rw [lastLine_absent habs hrep.path]
    rw [hbase, hrot] at habs
    exact boot_clean_absent (w := ⟨s.disk n, ls⟩) habs now
  · rw [lastLine_stored hst hrep.path (hrep.seq ▸ hseq)]
    rw [hbase, hrot] at hst
    refine boot_clean_stored (w := ⟨s.disk n, ls⟩) hst hstart (fun h => ?_) (fun h => ?_) now
    · rw [hgen]
      exact hkept.genesis_eq_zero (hlo ▸ h)
    · exact (hkept.noSentinel (hgen ▸ h) hns).mono hpre

theorem boot_clean_whole (hrep : Rep w.fs j S) (hkept : Kept w S) (hf : j.f = none)
    (hne : S.live ≠ []) (hbase : j.base = journal_base path) (hrot : j.rotates = rot.enabled)
    (hstart : StartsFromZero w.fs (journal_base path)) (hns : NoSentinel w.written) (now : Int64) :
    (journal_boot path w rot now).j.clean_close = toldClean w.written.getLast? := by
  have hst := hrep.stored hf hne
  rw [hbase, hrot] at hst
  rw [boot_clean_stored hst hstart hkept.genesis_eq_zero (fun h => hkept.noSentinel h hns) now]
  obtain ⟨gone, hw, -, -⟩ := hkept
  rw [hw, getLast?_append_of_ne_nil _ (by simp [Series.lines, hne])]

end Retrace.Retraced
