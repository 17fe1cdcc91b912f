import Retrace.Journal.Proofs.WriterProofs

/-!
# Rotation and retention keep the chain

Events as a whole, with the rotation and the retention they may trigger: from a state that holds a
series they lead to a state that holds a series, and no record is lost but those of pruned segments.
-/

namespace Retrace.Retraced

open CLib Parson HashChain Option

variable {lo : Nat}

structure SameSettings (j j' : Journal) : Prop where
  base : j'.base = j.base
  rotate_bytes : j'.rotate_bytes = j.rotate_bytes
  rotate_seconds : j'.rotate_seconds = j.rotate_seconds
  budget_bytes : j'.budget_bytes = j.budget_bytes

namespace SameSettings

theorem refl (j : Journal) : SameSettings j j := ⟨rfl, rfl, rfl, rfl⟩

theorem trans (h : SameSettings j j') (h' : SameSettings j' j'') : SameSettings j j'' :=
  ⟨h'.base.trans h.base, h'.rotate_bytes.trans h.rotate_bytes, h'.rotate_seconds.trans h.rotate_seconds,
    h'.budget_bytes.trans h.budget_bytes⟩

theorem appended (j : Journal) (f : FILE) (l : Bytes) : SameSettings j (j.appended f l) :=
  ⟨rfl, rfl, rfl, rfl⟩

theorem rotates (h : SameSettings j j') : j'.rotates = j.rotates := by
  simp [Journal.rotates, h.rotate_bytes, h.rotate_seconds]

theorem cleanBase (h : SameSettings j j') (hc : CleanBase j) : CleanBase j' where
  plain hr := by rw [h.base]; exact hc.plain (h.rotates ▸ hr)
  markers hr := by rw [h.base]; exact hc.markers (h.rotates ▸ hr)
  prunes hr hb := by rw [h.base]; exact hc.prunes (h.rotates ▸ hr) (h.budget_bytes ▸ hb)

end SameSettings

def Kept (w : World) (S : Series) : Prop :=
  ∃ gone, w.written = gone ++ S.lines ∧ S.genesis = headOf lineLink 0 gone ∧ (S.lo = 0 → gone = [])

theorem Kept.append (h : Kept w S) {l : Bytes} (hl : RecordLine S.head l)
    (fs : FS) : Kept ⟨fs, w.written ++ [l]⟩ (S.append l hl) := by
  obtain ⟨gone, hw, hg, hlo⟩ := h
  exact ⟨gone, by simp [hw, Series.append_lines], hg, hlo⟩

theorem Kept.roll (h : Kept w S) (hne : S.live ≠ []) (fs : FS) : Kept { w with fs := fs } (S.roll hne) := by
  obtain ⟨gone, hw, hg, hlo⟩ := h
  exact ⟨gone, by rw [Series.roll_lines]; exact hw, hg, hlo⟩

theorem Kept.prune (h : Kept w S) (hc : S.closed = c :: cs) (fs : FS) :
    Kept { w with fs := fs } (S.prune c cs hc) := by
  obtain ⟨gone, hw, hg, -⟩ := h
  refine ⟨gone ++ c, ?_, ?_, fun h0 => absurd h0 (Nat.succ_ne_zero _)⟩
  · rw [List.append_assoc, ← S.lines_of_prune hc]
    exact hw
  · rw [headOf_append, ← hg]
    rfl

theorem Rep.exists_bounds (hrep : Rep fs j S) (hn : segment_exists fs j.base n = true) : S.lo ≤ n ∧ n ≤ S.seq := by
  by_contra hcon
  have := hrep.absent n (by omega)
  simp [segment_exists, this] at hn

theorem Rep.exists_closed (hrep : Rep fs j S) (hi : i < S.closed.length) :
    segment_exists fs j.base (S.lo + i) = true := by
  simp [segment_exists, hrep.closed i _ (List.getElem?_eq_getElem hi)]

theorem segment_lo_eq_some : retraced_journal_segment_lo fs base hi = some lo ↔
      segment_exists fs base lo = true ∧ lo ≤ hi ∧ ∀ n < lo, segment_exists fs base n = false := by
  simp [retraced_journal_segment_lo, List.find?_range_eq_some]

theorem Rep.lo_eq (hrep : Rep fs j S)
    (hlo : retraced_journal_segment_lo fs j.base j.segment_seq = some lo) (hlt : lo < j.segment_seq) :
    lo = S.lo ∧ ∃ c cs, S.closed = c :: cs := by
  obtain ⟨hex, -, hmin⟩ := segment_lo_eq_some.mp hlo
  obtain ⟨hge, -⟩ := hrep.exists_bounds hex
  cases hc : S.closed with
  | nil =>
    have hseq : j.segment_seq = S.lo := by rw [hrep.seq, Series.seq, hc]; rfl
    omega
  | cons c cs =>
    refine ⟨?_, c, cs, rfl⟩
    have h0 : segment_exists fs j.base (S.lo + 0) = true := hrep.exists_closed (by simp [hc])
    by_contra hne
    rw [hmin (S.lo + 0) (by omega)] at h0
    exact absurd h0 (by decide)

/-- From a state that holds `S` to one that holds `S'`: the settings are the same, no record is lost
but those of pruned segments, and without a budget there is no pruning. -/
structure Keeps (w : World) (j : Journal) (S : Series) (w' : World) (j' : Journal) (S' : Series) :
    Prop where
  same : SameSettings j j'
  rep : Rep w'.fs j' S'
  kept : Kept w S → Kept w' S'
  lo : j.budget_bytes = 0 → S'.lo = S.lo

namespace Keeps

theorem refl (hrep : Rep w.fs j S) : Keeps w j S w j S := ⟨.refl j, hrep, id, fun _ => rfl⟩

theorem trans (h1 : Keeps w j S w1 j1 S1) (h2 : Keeps w1 j1 S1 w2 j2 S2) : Keeps w j S w2 j2 S2 :=
  ⟨h1.same.trans h2.same, h2.rep, h2.kept ∘ h1.kept,
    fun hb => (h2.lo (h1.same.budget_bytes.trans hb)).trans (h1.lo hb)⟩

theorem append (hrep : Rep w.fs j S) {seq : UInt64} (ha : Plain agent_id) (hp : PayloadOk payload)
    (hfit : (journal_line ts agent_id seq j.prev_hash payload).length < 2048) :
    ∃ fs' f' l hl, journal_append w j ts agent_id seq payload = some (⟨fs', w.written ++ [l]⟩, j.appended f' l) ∧
      Keeps w j S ⟨fs', w.written ++ [l]⟩ (j.appended f' l) (S.append l hl) := by
  obtain ⟨fs', f', hl, heq, hrep'⟩ := rep_append hrep ha hp hfit
  exact ⟨fs', f', _, hl, heq, .appended j f' _, hrep', fun hk => hk.append hl fs', fun _ => rfl⟩

theorem daemon (hrep : Rep w.fs j S) (ts : Int64) {payload : Bytes} (hp : PayloadOk (some payload))
    (hlen : payload.length < 512) : ∃ fs' f' l hl, journal_append w j ts daemon_id 0 (some payload) =
        some (⟨fs', w.written ++ [l]⟩, j.appended f' l) ∧
      Keeps w j S ⟨fs', w.written ++ [l]⟩ (j.appended f' l) (S.append l hl) :=
  append hrep (by decide) hp (daemon_line_fits ts j.prev_hash hlen)

end Keeps

theorem prune_next_spec (hrep : Rep w.fs j S) (hbud : j.budget_bytes ≠ 0)
    (hnext : prune_next w.fs j = some (lo, content)) : lo < 10000 ∧
      ∃ S', Keeps w j S { w with fs := removeFile w.fs (segment_file j.base lo) } j S' := by
  rw [prune_next] at hnext
  split at hnext
  · cases hnext
  · rename_i lo' hlo
    split_ifs at hnext with h1 h2
    obtain ⟨content', -, heq⟩ := map_eq_some_iff.mp hnext
    cases heq
    obtain ⟨rfl, c, cs, hc⟩ := hrep.lo_eq hlo (by omega)
    have hlt := hrep.seq_lt
    exact ⟨by omega, S.prune c cs hc, .refl j, rep_prune hrep hc, fun hk => hk.prune hc _, fun h => absurd h hbud⟩

theorem retain_loop_spec (ts : Int64) (n : Nat) {S : Series}
    (hrep : Rep w.fs j S) (hclean : CleanBase j) (hrot : j.rotates = true) (hbud : j.budget_bytes ≠ 0) :
    ∃ S', Keeps w j S (journal_retain_loop ts n w j).1 (journal_retain_loop ts n w j).2 S' := by
  induction n generalizing w j S with
  | zero => exact ⟨S, .refl hrep⟩
  | succ n ih =>
    rw [journal_retain_loop]
    split
    · exact ⟨S, .refl hrep⟩
    · rename_i lo content hnext
      obtain ⟨hlt, S1, hprune⟩ := prune_next_spec hrep hbud hnext
      have hok := payloadOk_segment_pruned (segment_file_plain (hclean.plain hrot) lo)
        (hclean.prunes hrot hbud lo (Int64.ofNat content.length) hlt)
      obtain ⟨fs', f', l, hl, heq, happ⟩ := Keeps.daemon hprune.rep ts hok
        (snprintf_length_lt (by norm_num) (by norm_num) _)
      simp only [journal_append_void, heq, getD_some]
      obtain ⟨S', hS'⟩ := ih happ.rep (happ.same.cleanBase hclean) hrot hbud
      exact ⟨S', (hprune.trans happ).trans hS'⟩

theorem retain_spec {S : Series} (hrep : Rep w.fs j S) (hclean : CleanBase j) (hrot : j.rotates = true) :
    ∃ S', Keeps w j S (journal_retain w j ts).1 (journal_retain w j ts).2 S' := by
  unfold journal_retain
  split_ifs with h
  · exact ⟨S, .refl hrep⟩
  · exact retain_loop_spec ts _ hrep hclean hrot h

theorem rotate_closing_spec (hrep : Rep w.fs j S) (hclean : CleanBase j) (hrot : j.rotates = true)
    (hseq : j.segment_seq + 1 < 10000) (ts : Int64) :
    ∃ S' f, Keeps w j S (rotate_closing w j ts).1 (rotate_closing w j ts).2 S' ∧ S'.live ≠ [] ∧
      S'.seq = S.seq ∧ (rotate_closing w j ts).2.f = some f := by
  have hfit := hclean.markers hrot j.segment_seq j.prev_hash j.lines hseq
  have hstart : Keeps w j S w { j with rotating := true } S :=
    ⟨⟨rfl, rfl, rfl, rfl⟩, { hrep with }, id, fun _ => rfl⟩
  obtain ⟨fs', f', l, hl, heq, happ⟩ := Keeps.daemon hstart.rep ts
    (payloadOk_segment_closed (segment_file_plain (hclean.plain hrot) j.segment_seq) hfit.1)
    (snprintf_length_lt (by norm_num) (by norm_num) _)
  simp only [rotate_closing, journal_append_void, heq, getD_some]
  exact ⟨_, f', hstart.trans happ, by simp, Series.append_seq .., rfl⟩

theorem rotate_next_spec (hrep : Rep w.fs j S) (hclean : CleanBase j) (hrot : j.rotates = true)
    (hseq : j.segment_seq + 1 < 10000) (ts : Int64) :
    ∃ S', Keeps w j S (rotate_next w j ts).1 (rotate_next w j ts).2 S' := by
  obtain ⟨S1, f, hclosed, hne, hseq1, hf⟩ := rotate_closing_spec hrep hclean hrot hseq ts
  simp only [rotate_next]
  generalize rotate_closing w j ts = p at *
  obtain ⟨w1, j1⟩ := p
  have hclose : close_stream w1 j1 = ⟨fclose w1.fs f, w1.written⟩ := by
    simp only at hf
    simp only [close_stream, hf]
  have hroll : Keeps w1 j1 S1 ⟨fclose w1.fs f, w1.written⟩ (j1.next_segment ts) (S1.roll hne) :=
    ⟨⟨rfl, rfl, rfl, rfl⟩, rep_roll hclosed.rep hf hne (hclosed.same.rotates.trans hrot)
      (by rw [hseq1, ← hrep.seq]; exact hseq) ts, fun hk => hk.roll hne _, fun _ => rfl⟩
  rw [hclose]
  exact ⟨_, hclosed.trans hroll⟩

theorem rotate_spec (hrep : Rep w.fs j S) (hclean : CleanBase j) (hrot : j.rotates = true)
    (hseq : j.segment_seq + 1 < 10000) (ts : Int64) :
    ∃ S', Keeps w j S (journal_rotate w j ts).1 (journal_rotate w j ts).2 S' ∧ S'.live ≠ [] ∧
      (journal_rotate w j ts).2.rotating = false ∧ ∃ f, (journal_rotate w j ts).2.f = some f := by
  have hfit := hclean.markers hrot j.segment_seq j.prev_hash j.lines hseq
  have hplain := fun n => segment_file_plain (hclean.plain hrot) n
  obtain ⟨S2, hnext⟩ := rotate_next_spec hrep hclean hrot hseq ts
  simp only [journal_rotate]
  generalize rotate_next w j ts = next at *
  obtain ⟨w2, j2⟩ := next
  obtain ⟨S3, hretain⟩ :=
    retain_spec hnext.rep (hnext.same.cleanBase hclean) (hnext.same.rotates.trans hrot)
  simp only at hretain ⊢
  generalize journal_retain w2 j2 ts = retained at *
  obtain ⟨w3, j3⟩ := retained
  obtain ⟨fs4, f4, l4, hl4, heq4, hopened⟩ := Keeps.daemon hretain.rep ts
    (payloadOk_segment_opened (hplain (j.segment_seq + 1)) (hplain j.segment_seq) hfit.2)
    (snprintf_length_lt (by norm_num) (by norm_num) _)
  simp only at heq4
  simp only [journal_append_void, heq4, getD_some]
  have hend : Keeps ⟨fs4, w3.written ++ [l4]⟩ (j3.appended f4 l4) (S3.append l4 hl4)
      ⟨fs4, w3.written ++ [l4]⟩ { j3.appended f4 l4 with rotating := false } (S3.append l4 hl4) :=
    ⟨⟨rfl, rfl, rfl, rfl⟩, { hopened.rep with }, id, fun _ => rfl⟩
  exact ⟨_, ((hnext.trans hretain).trans hopened).trans hend, by simp, trivial, f4, rfl⟩

theorem append_void_segment_seq :
    (journal_append_void w j ts agent_id seq payload).2.segment_seq = j.segment_seq := by
  rcases journal_append_cases w j ts agent_id seq payload with ⟨h, -⟩ | ⟨fs', f', h, -⟩
  · rw [journal_append_void, h]
    rfl
  · rw [journal_append_void, h]
    rfl

theorem retain_segment_seq : (journal_retain w j ts).2.segment_seq = j.segment_seq := by
  have hloop : ∀ n w j, (journal_retain_loop ts n w j).2.segment_seq = j.segment_seq := by
    intro n
    induction n with
    | zero => exact fun _ _ => rfl
    | succ n ih =>
      intro w j
      rw [journal_retain_loop]
      split
      · rfl
      · simp only [ih, append_void_segment_seq]
  unfold journal_retain
  split_ifs
  · rfl
  · exact hloop _ w j

theorem rotate_segment_seq (w : World) (j : Journal) (ts : Int64) :
    (journal_rotate w j ts).2.segment_seq = j.segment_seq + 1 := by
  simp only [journal_rotate, rotate_next, rotate_closing, append_void_segment_seq, retain_segment_seq,
    Journal.next_segment]

theorem event_spec_of_fits (hrep : Rep w.fs j S)
    (hclean : CleanBase j) (hnot : j.rotating = false) (ts : Int64) (seq : UInt64)
    (ha : Plain agent_id) (hp : PayloadOk payload)
    (hfit : (journal_line ts agent_id seq j.prev_hash payload).length < 2048)
    (hseq : (retraced_journal_event w j ts agent_id seq payload).2.2.segment_seq < 10000) :
    ∃ S', Keeps w j S (retraced_journal_event w j ts agent_id seq payload).2.1
        (retraced_journal_event w j ts agent_id seq payload).2.2 S' ∧ S'.live ≠ [] ∧
      (retraced_journal_event w j ts agent_id seq payload).2.2.rotating = false ∧
      ∃ f, (retraced_journal_event w j ts agent_id seq payload).2.2.f = some f := by
  obtain ⟨fs', f', l, hl, heq, happ⟩ := Keeps.append hrep ha hp hfit
  by_cases hdue : (j.appended f' l).due ts = true
  · have hev : retraced_journal_event w j ts agent_id seq payload =
        (0, journal_rotate ⟨fs', w.written ++ [l]⟩ (j.appended f' l) ts) := by
      simp only [retraced_journal_event, heq, if_pos hdue]
    rw [hev] at hseq ⊢
    dsimp only at hseq ⊢
    have hrot : j.rotates = true := by
      simp only [Journal.due, Bool.and_eq_true] at hdue
      exact hdue.1.2
    rw [rotate_segment_seq] at hseq
    obtain ⟨S', hS', hrest⟩ := rotate_spec happ.rep (happ.same.cleanBase hclean) hrot hseq ts
    exact ⟨S', happ.trans hS', hrest⟩
  · have hev : retraced_journal_event w j ts agent_id seq payload =
        (0, ⟨fs', w.written ++ [l]⟩, j.appended f' l) := by
      simp only [retraced_journal_event, heq, if_neg hdue]
    rw [hev]
    exact ⟨_, happ, by simp, hnot, f', rfl⟩

theorem event_spec (hrep : Rep w.fs j S) (hclean : CleanBase j) (hnot : j.rotating = false)
    (ts : Int64) (seq : UInt64)
    (ha : Plain agent_id) (hp : PayloadOk payload)
    (hseq : (retraced_journal_event w j ts agent_id seq payload).2.2.segment_seq < 10000) :
    ∃ S', Keeps w j S (retraced_journal_event w j ts agent_id seq payload).2.1
        (retraced_journal_event w j ts agent_id seq payload).2.2 S' ∧
      (retraced_journal_event w j ts agent_id seq payload).2.2.rotating = false := by
  by_cases hfit : (journal_line ts agent_id seq j.prev_hash payload).length < 2048
  · obtain ⟨S', hS', -, hrotating, -⟩ := event_spec_of_fits hrep hclean hnot ts seq ha hp hfit hseq
    exact ⟨S', hS', hrotating⟩
  · have hrefused : retraced_journal_event w j ts agent_id seq payload = (-1, w, j) := by
      simp [retraced_journal_event, journal_append, Nat.not_lt.mp hfit]
    rw [hrefused]
    exact ⟨S, .refl hrep, hnot⟩

theorem flush_spec (hrep : Rep w.fs j S) : Rep (retraced_journal_flush w j).1.fs (retraced_journal_flush w j).2 S ∧
      (retraced_journal_flush w j).1.written = w.written := by
  cases hf : j.f with
  | none => simpa only [retraced_journal_flush, hf] using ⟨hrep, trivial⟩
  | some f =>
    have hlive := hrep.live
    simp only [LiveRep, hf] at hlive
    have hother : ∀ n, n ≠ S.seq → (fflush w.fs f).1 (segment_file j.base n) =
        w.fs (segment_file j.base n) := fun n hn =>
      fflush_other (by rw [hlive.1]; exact hrep.path_ne hn)
    simp only [retraced_journal_flush, hf, and_true]
    obtain ⟨hclosed, habsent⟩ := hrep.closed_absent hother
    refine { hrep with closed := hclosed, absent := habsent, live := ⟨hlive.1, ?_⟩ }
    rw [fflush_full]
    exact hlive.2

theorem torn_nil : Torn [] := ⟨by simp, by norm_num⟩

theorem rep_close (hrep : Rep fs j S)
    (hf : j.f = some f) : Rep (fclose fs f) { j with f := none, clean_close := true } S := by
  have hlive := hrep.live
  simp only [LiveRep, hf] at hlive
  have hother : ∀ n, n ≠ S.seq → fclose fs f (segment_file j.base n) = fs (segment_file j.base n) :=
    fun n hn => fclose_other (by rw [hlive.1]; exact hrep.path_ne hn)
  obtain ⟨hclosed, habsent⟩ := hrep.closed_absent hother
  refine { hrep with closed := hclosed, absent := habsent, live := ?_ }
  left
  rw [← hlive.1, fclose_content, hlive.2]

theorem Rep.stored (hrep : Rep fs j S) (hf : j.f = none) (hne : S.live ≠ []) : Stored fs j.base j.rotates S := by
  refine ⟨hrep.base_len, hrep.base_short, hrep.seq ▸ hrep.seq_lt, hrep.single, hrep.closed,
    hrep.absent, ?_, torn_nil⟩
  have hlive := hrep.live
  have hpath := hrep.path
  rw [Journal.liveFile, hrep.seq] at hpath
  simp only [LiveRep, hf, hne, and_false, or_false] at hlive
  rw [← hpath, hlive, List.append_nil]

theorem close_spec (hrep : Rep w.fs j S) (hclean : CleanBase j) (hnot : j.rotating = false)
    (hseq : (retraced_journal_close w j now).2.segment_seq < 10000) :
    ∃ S', Keeps w j S (retraced_journal_close w j now).1 (retraced_journal_close w j now).2 S' ∧
      S'.live ≠ [] ∧ (retraced_journal_close w j now).2.f = none ∧
      (retraced_journal_close w j now).2.rotating = false := by
  have hfit := daemon_line_fits now j.prev_hash (by decide : journal_closed_record.length < 512)
  have hspec := event_spec_of_fits hrep hclean hnot now 0 (by decide : Plain daemon_id)
    payloadOk_journal_closed hfit
  simp only [retraced_journal_close] at hseq ⊢
  generalize (retraced_journal_event w j now daemon_id 0 (some journal_closed_record)).2 = s at *
  obtain ⟨w', j'⟩ := s
  dsimp only at *
  obtain ⟨S', hS', hne, hrotating, f, hf⟩ := hspec hseq
  have hclose : close_stream w' j' = ⟨fclose w'.fs f, w'.written⟩ := by simp only [close_stream, hf]
  have hend : Keeps w' j' S' ⟨fclose w'.fs f, w'.written⟩ { j' with f := none, clean_close := true } S' :=
    ⟨⟨rfl, rfl, rfl, rfl⟩, rep_close hS'.rep hf, id, fun _ => rfl⟩
  rw [hclose]
  exact ⟨S', hS'.trans hend, hne, trivial, hrotating⟩

end Retrace.Retraced
