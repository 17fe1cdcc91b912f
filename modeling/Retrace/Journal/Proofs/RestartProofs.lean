import Retrace.Journal.Proofs.BootProofs

/-!
# Restarts after retention

A restart resumes the chain exactly when the lowest segment left is one from which the boot counts and
replays: segment 0, or segment 1 if the pruned records happen to lead to the link 0. Retention prunes
from the bottom, so it leads out of this condition.
-/

namespace Retrace.Retraced

open CLib Parson HashChain Runs List

variable {j : Journal} {s : Session}

theorem CleanPath.base_short (h : CleanPath path rot) (hrot : rot.enabled = true) :
    (journal_base path).length ≤ 506 :=
  base_short_of_markersFit (journal_base_length path)
    (not_mem_zero_snprintf (not_mem_zero_cstr path) 512) (h.markers hrot)

theorem Configured.cleanBase (hj : Configured path rot j)
    (h : CleanPath path rot) : CleanBase j where
  plain hr := by rw [hj.base]; exact h.plain (hj.rotates ▸ hr)
  markers hr := by rw [hj.base]; exact h.markers (hj.rotates ▸ hr)
  prunes hr hb := by rw [hj.base]; exact h.prunes (hj.rotates ▸ hr) (hj.budget_bytes ▸ hb)

theorem Configured.keep (hj : Configured path rot j)
    (h : SameSettings j j') (hnot : j'.rotating = false) : Configured path rot j' :=
  ⟨h.base.trans hj.base, h.rotate_bytes.trans hj.rotate_bytes, h.rotate_seconds.trans hj.rotate_seconds,
    h.budget_bytes.trans hj.budget_bytes, hnot⟩

def Holds (path : Bytes) (rot : Rotation) (s : Session) (S : Series) : Prop :=
  Configured path rot s.j ∧ Rep s.w.fs s.j S ∧ Kept s.w S

theorem holds_fresh (hfresh : Fresh fs (journal_base path)) (hclean : CleanPath path rot)
    (now : Int64) : Holds path rot (journal_boot path ⟨fs, []⟩ rot now) Series.empty := by
  obtain ⟨hconf, hw, hrep⟩ := boot_fresh (w := ⟨fs, []⟩) hfresh hclean.base_short now
  refine ⟨hconf, by rw [hw]; exact hrep, ?_⟩
  rw [hw]
  exact ⟨[], rfl, rfl, fun _ => rfl⟩

/-- After an event the disk holds a series again, also when rotation and retention were due. -/
theorem holds_event (hclean : CleanPath path rot) (h : Holds path rot s S) (ha : Plain agent_id)
    (hp : PayloadOk payload) (hseq : (s.step path (.event ts agent_id seq payload)).j.segment_seq < 10000) :
    ∃ S', Holds path rot (s.step path (.event ts agent_id seq payload)) S' ∧
      (rot.budget_bytes = 0 → S'.lo = S.lo) := by
  obtain ⟨hconf, hrep, hkept⟩ := h
  have hspec := event_spec hrep (hconf.cleanBase hclean) hconf.rotating ts seq ha hp
  simp only [Session.step] at hseq ⊢
  generalize retraced_journal_event s.w s.j ts agent_id seq payload = e at *
  obtain ⟨S', hS', hrotating⟩ := hspec hseq
  exact ⟨S', ⟨hconf.keep hS'.same hrotating, hS'.rep, hS'.kept hkept⟩, fun hb =>
    hS'.lo (hconf.budget_bytes.trans hb)⟩

theorem holds_flush (h : Holds path rot s S) : Holds path rot (s.step path .flush) S := by
  obtain ⟨hconf, hrep, gone, hw, hg, h0⟩ := h
  obtain ⟨hrep', hw'⟩ := flush_spec hrep
  refine ⟨?_, hrep', gone, hw'.trans hw, hg, h0⟩
  simp only [Session.step]
  cases hf : s.j.f with
  | none => simpa [retraced_journal_flush, hf] using hconf
  | some f => simpa [retraced_journal_flush, hf] using { hconf with }

/-- The same for every run of writes. -/
theorem holds_run (hclean : CleanPath path rot) (h : Holds path rot s S)
    (hops : Along (Session.step path) (WriteOk path) s ops) :
    ∃ S', Holds path rot (run (Session.step path) s ops) S' := by
  refine run_invariant (fun s => ∃ S, Holds path rot s S) ?_ ⟨S, h⟩ hops
  rintro s (⟨ts, agent_id, seq, payload⟩ | _ | _) ⟨S, h⟩ hop
  · obtain ⟨S', hS', -⟩ := holds_event hclean h hop.1 hop.2.1 hop.2.2
    exact ⟨S', hS'⟩
  · exact ⟨S, holds_flush h⟩
  · exact absurd hop id

theorem holds_closed (hclean : CleanPath path rot) (h : Holds path rot s S)
    (hseq : (retraced_journal_close s.w s.j now).2.segment_seq < 10000) :
    ∃ S', Holds path rot { s with
          w := (retraced_journal_close s.w s.j now).1
          j := (retraced_journal_close s.w s.j now).2 } S' ∧
      S'.live ≠ [] ∧ (retraced_journal_close s.w s.j now).2.f = none ∧
      (rot.budget_bytes = 0 → S'.lo = S.lo) := by
  obtain ⟨hconf, hrep, hkept⟩ := h
  have hspec := close_spec hrep (hconf.cleanBase hclean) hconf.rotating hseq
  generalize retraced_journal_close s.w s.j now = closed at *
  obtain ⟨S', hS', hne, hf, hrotating⟩ := hspec
  exact ⟨S', ⟨hconf.keep hS'.same hrotating, hS'.rep, hS'.kept hkept⟩, hne, hf,
    fun hb => hS'.lo (hconf.budget_bytes.trans hb)⟩

theorem holds_close (hclean : CleanPath path rot) (h : Holds path rot s S)
    (hseq : (retraced_journal_close s.w s.j now).2.segment_seq < 10000) :
    ∃ S', Stored (retraced_journal_close s.w s.j now).1.fs (journal_base path) rot.enabled S' ∧
      S'.live ≠ [] ∧ Kept (retraced_journal_close s.w s.j now).1 S' ∧ (rot.budget_bytes = 0 → S'.lo = S.lo) ∧
      (retraced_journal_close s.w s.j now).2.prev_hash = S'.head ∧ (retraced_journal_close s.w s.j now).2.path =
        if rot.enabled then segment_file (journal_base path) S'.seq else journal_base path := by
  have hspec := holds_closed hclean h hseq
  generalize retraced_journal_close s.w s.j now = closed at *
  obtain ⟨S', ⟨hconf, hrep, hkept⟩, hne, hf, hlo⟩ := hspec
  have hst := hrep.stored hf hne
  have hpath := hrep.path
  rw [hconf.base, hconf.rotates] at hst
  rw [Journal.liveFile, hrep.seq, hconf.base, hconf.rotates] at hpath
  exact ⟨S', hst, hne, hkept, hlo, hrep.head, hpath⟩

theorem Stored.first_link (hst : Stored fs base true S) (hne : S.live ≠ []) :
    segment_first_link fs base S.lo = some (.link S.genesis) := by
  obtain ⟨seg, rest, hsegs⟩ : ∃ seg rest, S.closed ++ [S.live] = seg :: rest := by
    cases S.closed <;> simp
  have hfile : fs (segment_file base S.lo) = some seg.flatten := by
    have := hst.files (i := 0) (by rw [hsegs]; rfl)
    simpa using this
  have hmem : seg ∈ S.closed ++ [S.live] := by rw [hsegs]; exact mem_cons_self
  have hseg : seg ≠ [] := by
    rcases mem_append.mp hmem with h | h
    · exact S.closed_ne seg h
    · rwa [mem_singleton.mp h]
  have hlinked := S.linked_first hsegs
  obtain ⟨l, ls, rfl⟩ := exists_cons_of_ne_nil hseg
  rw [segment_first_link, hfile, Option.bind_some, chunks_records hlinked]
  simp [hlinked.1.record]

theorem Kept.noSentinel (hk : Kept w S) (hgen : S.genesis = 0) (hns : NoSentinel w.written) :
    NoSentinel S.lines := by
  obtain ⟨gone, hw, hg, -⟩ := hk
  intro k
  have h := hns (gone.length + k)
  rwa [hw, take_length_add_append, headOf_append, ← hg, hgen] at h

theorem Kept.genesis_eq_zero (hk : Kept w S) (hlo : S.lo = 0) : S.genesis = 0 := by
  obtain ⟨gone, -, hg, h0⟩ := hk
  rw [hg, h0 hlo]
  rfl

section

variable {path : Bytes} {rot : Rotation}

theorem boot_refused (hst : Stored w.fs (journal_base path) true S) (hrot : rot.enabled = true)
    (hlo : S.lo ≤ 1) (hne : S.live ≠ []) (hgen : S.genesis ≠ 0) (now : Int64) :
    (journal_boot path w rot now).rc = -1 := by
  have hcount : S.seq + 1 - S.lo = (S.closed ++ [S.live]).length := by
    simp only [Series.seq, length_append, length_singleton]
    omega
  have hfiles : ∀ i ls, (S.closed ++ [S.live])[i]? = some ls →
      w.fs (segment_file (journal_base path) (S.lo + i)) = some ls.flatten := fun i ls hi => by
    simpa using hst.files hi
  have hbroken := replay_segments_mismatch (S.closed ++ [S.live]) S.lo
    (bootJournal path rot now S.seq) {} hfiles
    (by rw [S.segments_flatten]; exact S.linked) (by simp [hne]) hgen (by decide)
  rw [journal_boot_rotating hrot now (hst.resolve hlo), hst.segment_lo S.lo_le_seq]
  simp only [hcount]
  generalize replay_segments w.fs _ _ _ _ = res at hbroken
  obtain ⟨prev, j', r'⟩ := res
  simp only at hbroken
  simp [replay_result, hbroken]

theorem boot_gap (hst : Stored w.fs (journal_base path) true S) (hrot : rot.enabled = true)
    (hlo : 1 < S.lo) (now : Int64) :
    (journal_boot path w rot now).rc = 0 ∧ (journal_boot path w rot now).j.segment_seq = 0 ∧
      (journal_boot path w rot now).j.prev_hash = 0 := by
  have hnone : retraced_journal_segment_lo w.fs (journal_base path) 0 = none := by
    by_contra hcon
    obtain ⟨lo, h⟩ := Option.ne_none_iff_exists'.mp hcon
    obtain ⟨hex, hle, -⟩ := segment_lo_eq_some.mp h
    have := ((hst.exists_iff lo).mp hex).1
    omega
  rw [journal_boot_rotating hrot now (hst.resolve_gap hlo), hnone]
  exact ⟨rfl, rfl, rfl⟩

theorem stored_resumes_iff (hst : Stored w.fs (journal_base path) rot.enabled S)
    (hne : S.live ≠ []) (hk : Kept w S) (hns : NoSentinel w.written) (hhead : j.prev_hash = S.head) :
    Resumes rot (journal_base path) (w, j) (journal_boot path w rot now) ↔
      StartsFromZero w.fs (journal_base path) := by
  have hresumes : S.lo ≤ 1 → S.genesis = 0 →
      Resumes rot (journal_base path) (w, j) (journal_boot path w rot now) := by
    intro hlo hgen
    have hb := boot_stored hst hlo hgen (hk.noSentinel hgen hns) now
    have hseq : (journal_boot path w rot now).j.segment_seq = S.seq := hb.rep.seq
    refine ⟨fun n hn => ?_, fun hrot => ?_, hb.rc, hb.unbroken, hb.rep.head.trans hhead.symm⟩
    · by_contra hcon
      have := hst.absent n (by omega)
      simp [segment_exists, this] at hn
    · rw [hseq]
      exact (Stored.exists_iff (hrot ▸ hst) _).mpr ⟨S.lo_le_seq, le_rfl⟩
  cases hrot : rot.enabled with
  | false =>
    -- One file: there are no segments, and nothing is ever pruned.
    have hseq := hst.single hrot
    have hlo : S.lo = 0 := Nat.le_zero.mp (hseq ▸ S.lo_le_seq)
    refine ⟨fun _ lo h => ?_, fun _ => hresumes (by omega) (hk.genesis_eq_zero hlo)⟩
    obtain ⟨hex, -, -⟩ := segment_lo_eq_some.mp h
    left
    by_contra hcon
    have := hst.absent lo (by omega)
    simp [segment_exists, this] at hex
  | true =>
    rw [hrot] at hst
    have hlt := hst.seq_lt
    have hle := S.lo_le_seq
    have hlow : retraced_journal_segment_lo w.fs (journal_base path) 9999 = some S.lo :=
      hst.segment_lo (by omega)
    have hfirst := hst.first_link hne
    constructor
    · intro h lo hlo
      obtain rfl : S.lo = lo := by simpa [hlow] using hlo
      rcases Nat.lt_or_ge 1 S.lo with hgap | hlo1
      · -- The boot takes the series for a fresh one.
        have hseq := (boot_gap hst hrot hgap now).2.1
        have := (hst.exists_iff _).mp (h.live hrot)
        omega
      · by_cases hgen : S.genesis = 0
        · rcases Nat.eq_zero_or_pos S.lo with h0 | hpos
          · exact .inl h0
          · have h1 : S.lo = 1 := by omega
            exact .inr ⟨h1, by rw [← h1, hfirst, hgen]⟩
        · have hrc := boot_refused hst hrot hlo1 hne hgen now
          rw [h.rc] at hrc
          exact absurd hrc (by decide)
    · intro h
      rcases h S.lo hlow with h0 | ⟨h1, hlink⟩
      · exact hresumes (by omega) (hk.genesis_eq_zero h0)
      · refine hresumes (by omega) ?_
        rw [h1] at hfirst
        rw [hfirst] at hlink
        simpa using hlink

/-- **Retention and restart.** After any run of writes the next boot resumes the journal exactly when
the lowest segment that is left is segment 0, or segment 1 with the link 0 in its first line. -/
theorem restart_resumes_iff {fs : FS} {rot' : Rotation} (hfresh : Fresh fs (journal_base path))
    (hclean : CleanPath path rot) (hrot : rot'.enabled = rot.enabled) (now closed_at opened_at : Int64)
    {ops : List Op}
    (hops : Along (Session.step path) (WriteOk path) (journal_boot path ⟨fs, []⟩ rot now) ops)
    {s : Session} (hs : s = run (Session.step path) (journal_boot path ⟨fs, []⟩ rot now) ops)
    (hseq : (retraced_journal_close s.w s.j closed_at).2.segment_seq < 10000)
    (hns : NoSentinel (retraced_journal_close s.w s.j closed_at).1.written) :
    Resumes rot' (journal_base path) (retraced_journal_close s.w s.j closed_at)
        (journal_boot path (retraced_journal_close s.w s.j closed_at).1 rot' opened_at) ↔
      StartsFromZero (retraced_journal_close s.w s.j closed_at).1.fs (journal_base path) := by
  obtain ⟨S, hS⟩ := holds_run hclean (holds_fresh hfresh hclean now) hops
  rw [← hs] at hS
  obtain ⟨S', hst, hne, hk, -, hhead, -⟩ := holds_close hclean hS hseq
  rw [← hrot] at hst
  generalize retraced_journal_close s.w s.j closed_at = closed at *
  obtain ⟨w', j'⟩ := closed
  exact stored_resumes_iff hst hne hk hns hhead

end

def rotatedOnce (budget_bytes : Nat) : Session :=
  run (Session.step (bytes "j")) (journal_boot (bytes "j") ⟨fun _ => none, []⟩ ⟨1, 0, budget_bytes⟩ 0)
    [.event 0 (bytes "a") 0 none]

def rotatedOnceClosed (budget_bytes : Nat) : World × Journal :=
  retraced_journal_close (rotatedOnce budget_bytes).w (rotatedOnce budget_bytes).j 0

/-- Without a budget nothing is pruned, and the restart resumes. -/
theorem resumes_rotatedOnce_unpruned :
    Resumes ⟨1, 0, 0⟩ (journal_base (bytes "j")) (rotatedOnceClosed 0)
      (journal_boot (bytes "j") (rotatedOnceClosed 0).1 ⟨1, 0, 0⟩ 0) := by
  have hclean : CleanPath (bytes "j") ⟨1, 0, 0⟩ :=
    ⟨fun _ => by decide, fun _ => markersFit_of_length (by decide), fun _ h => absurd rfl h⟩
  obtain ⟨hevent, hseq, hns, hzero⟩ : (rotatedOnce 0).j.segment_seq < 10000 ∧
      (rotatedOnceClosed 0).2.segment_seq < 10000 ∧ NoSentinel (rotatedOnceClosed 0).1.written ∧
      segment_exists (rotatedOnceClosed 0).1.fs (journal_base (bytes "j")) 0 = true := by
    decide +kernel
  have hops : Along (Session.step (bytes "j")) (WriteOk (bytes "j"))
      (journal_boot (bytes "j") ⟨fun _ => none, []⟩ ⟨1, 0, 0⟩ 0) [.event 0 (bytes "a") 0 none] :=
    ⟨⟨by decide, by simp [PayloadOk], hevent⟩, trivial⟩
  have hs : rotatedOnce 0 = run (Session.step (bytes "j"))
      (journal_boot (bytes "j") ⟨fun _ => none, []⟩ ⟨1, 0, 0⟩ 0) [.event 0 (bytes "a") 0 none] := rfl
  refine (restart_resumes_iff ⟨rfl, fun _ => rfl⟩ hclean rfl 0 0 0 hops hs hseq hns).mpr ?_
  intro lo hlo
  left
  by_contra hne
  have := (segment_lo_eq_some.mp hlo).2.2 0 (by omega)
  exact absurd (hzero.symm.trans this) (by decide)

/-- With a budget of one byte the segments 0 and 1 are pruned: the restart does not find segment 2. -/
theorem not_resumes_rotatedOnce_pruned :
    ¬ Resumes ⟨1, 0, 1⟩ (journal_base (bytes "j")) (rotatedOnceClosed 1)
      (journal_boot (bytes "j") (rotatedOnceClosed 1).1 ⟨1, 0, 1⟩ 0) := by
  intro h
  obtain ⟨hexists, hless⟩ : segment_exists (rotatedOnceClosed 1).1.fs (journal_base (bytes "j")) 2 = true ∧
      ¬ 2 ≤ (journal_boot (bytes "j") (rotatedOnceClosed 1).1 ⟨1, 0, 1⟩ 0).j.segment_seq := by
    decide +kernel
  exact hless (h.highest 2 hexists)

end Retrace.Retraced
