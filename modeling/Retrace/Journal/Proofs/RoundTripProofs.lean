import Retrace.Journal.Proofs.RestartProofs

/-!
# The round trip of a journal

Without retention nothing is ever lost: over any number of rotations and restarts a boot reads back
every record that was written, as long as the base path can be put into the markers of rotation.
-/

namespace Retrace.Retraced

open CLib Parson HashChain Runs

variable {s : Session}

theorem Kept.lines_eq (hk : Kept w S) (hlo : S.lo = 0) : S.lines = w.written := by
  obtain ⟨gone, hw, -, h0⟩ := hk
  rw [hw, h0 hlo, List.nil_append]

theorem boot_whole (hst : Stored w.fs (journal_base path) rot.enabled S) (hk : Kept w S)
    (hlo : S.lo = 0) (hns : NoSentinel w.written) (now : Int64) :
    Booted path w rot S (journal_boot path w rot now) := by
  refine boot_stored hst (by omega) (hk.genesis_eq_zero hlo) ?_ now
  rw [hk.lines_eq hlo]
  exact hns

theorem boot_of_holds (hclean : CleanPath path rot) (hbud : rot.budget_bytes = 0)
    (h : Holds path rot s S) (hlo : S.lo = 0) (hrot : rot'.enabled = rot.enabled)
    (hseq : (retraced_journal_close s.w s.j closed_at).2.segment_seq < 10000)
    (hns : NoSentinel (retraced_journal_close s.w s.j closed_at).1.written) (opened_at : Int64) :
    ∃ S', Booted path (retraced_journal_close s.w s.j closed_at).1 rot' S'
        (journal_boot path (retraced_journal_close s.w s.j closed_at).1 rot' opened_at) ∧
      Kept (retraced_journal_close s.w s.j closed_at).1 S' ∧ S'.lo = 0 ∧
      (retraced_journal_close s.w s.j closed_at).2.prev_hash = S'.head := by
  obtain ⟨S', hst, -, hk, hlo', hhead, -⟩ := holds_close hclean h hseq
  rw [← hrot] at hst
  have hzero : S'.lo = 0 := (hlo' hbud).trans hlo
  exact ⟨S', boot_whole hst hk hzero hns opened_at, hk, hzero, hhead⟩

section

variable {path : Bytes} {enabled : Bool} (hplain : enabled = true → Plain (journal_base path))
  (hmarkers : enabled = true → MarkersFit (journal_base path))

def HoldsAll (path : Bytes) (enabled : Bool) (s : Session) : Prop :=
  ∃ rot S, rot.enabled = enabled ∧ rot.budget_bytes = 0 ∧ Holds path rot s S ∧ S.lo = 0

include hplain hmarkers

theorem cleanPath_of_plain (hrot : rot.enabled = enabled) (hbud : rot.budget_bytes = 0) : CleanPath path rot :=
  ⟨fun h => hplain (hrot ▸ h), fun h => hmarkers (hrot ▸ h), fun _ h => absurd hbud h⟩

/-- Every operation without retention leaves a series from the first segment on. -/
theorem holdsAll_step (h : HoldsAll path enabled s)
    (hop : RoundTripOk path enabled s op) : HoldsAll path enabled (s.step path op) := by
  obtain ⟨rot, S, hrot, hbud, hS, hlo⟩ := h
  have hclean := cleanPath_of_plain hplain hmarkers hrot hbud
  cases op with
  | event ts agent_id seq payload =>
    obtain ⟨S', hS', hlo'⟩ := holds_event hclean hS hop.1 hop.2.1 hop.2.2
    exact ⟨rot, S', hrot, hbud, hS', (hlo' hbud).trans hlo⟩
  | flush => exact ⟨rot, S, hrot, hbud, holds_flush hS, hlo⟩
  | restart closed_at rot' opened_at =>
    obtain ⟨hrot', hbud', hseq, hns⟩ := hop
    obtain ⟨S', hb, hk, hlo', -⟩ :=
      boot_of_holds hclean hbud hS hlo (hrot'.trans hrot.symm) hseq hns opened_at
    refine ⟨rot', S', hrot', hbud', ⟨hb.configured, ?_, ?_⟩, hlo'⟩
    · simp only [Session.step, hb.world]
      exact hb.rep
    · simp only [Session.step, hb.world]
      exact hk

/-- So do the operations of a whole life that began on an empty disk. -/
theorem holdsAll_run (hfresh : Fresh fs (journal_base path))
    (hrot : rot.enabled = enabled) (hbud : rot.budget_bytes = 0) (now : Int64)
    (hops : Along (Session.step path) (RoundTripOk path enabled) (journal_boot path ⟨fs, []⟩ rot now) ops)
    (hs : s = run (Session.step path) (journal_boot path ⟨fs, []⟩ rot now) ops) : HoldsAll path enabled s := by
  have hstart : HoldsAll path enabled (journal_boot path ⟨fs, []⟩ rot now) :=
    ⟨rot, Series.empty, hrot, hbud,
      holds_fresh hfresh (cleanPath_of_plain hplain hmarkers hrot hbud) now, rfl⟩
  rw [hs]
  exact run_invariant _ (fun s op => holdsAll_step hplain hmarkers) hstart hops

/-- **Round trip.** On a base path without quotes, backslashes and control bytes whose markers are not
cut, after any run of events, flushes and restarts without retention, a last close and boot reads back
exactly what was written. -/
theorem round_trip {fs : FS} (hfresh : Fresh fs (journal_base path)) {rot rot' : Rotation}
    (hrot : rot.enabled = enabled) (hbud : rot.budget_bytes = 0) (hrot' : rot'.enabled = enabled)
    (now closed_at opened_at : Int64) {ops : List Op}
    (hops : Along (Session.step path) (RoundTripOk path enabled) (journal_boot path ⟨fs, []⟩ rot now) ops)
    {s : Session} (hs : s = run (Session.step path) (journal_boot path ⟨fs, []⟩ rot now) ops)
    (hseq : (retraced_journal_close s.w s.j closed_at).2.segment_seq < 10000)
    (hns : NoSentinel (retraced_journal_close s.w s.j closed_at).1.written) :
    RoundTrips (retraced_journal_close s.w s.j closed_at)
      (journal_boot path (retraced_journal_close s.w s.j closed_at).1 rot' opened_at) := by
  obtain ⟨rot₁, S, hrot₁, hbud₁, hS, hlo⟩ := holdsAll_run hplain hmarkers hfresh hrot hbud now hops hs
  obtain ⟨S', hb, hk, hlo', hhead⟩ := boot_of_holds (cleanPath_of_plain hplain hmarkers hrot₁ hbud₁)
    hbud₁ hS hlo (hrot'.trans hrot₁.symm) hseq hns opened_at
  refine ⟨hb.rc, hb.unbroken, hb.rep.head.trans hhead.symm, ?_⟩
  rw [hb.events, hk.lines_eq hlo']

end

/-- A journal on `path`: a restart, and an event. The close that follows fills the segment. -/
def secondBoot (path : Bytes) : Session :=
  run (Session.step path) (journal_boot path ⟨fun _ => none, []⟩ ⟨150, 0, 0⟩ 0)
    [.restart 0 ⟨150, 0, 0⟩ 0, .event 0 (bytes "a") 0 none]

def secondBootClosed (path : Bytes) : World × Journal :=
  retraced_journal_close (secondBoot path).w (secondBoot path).j 0

def firstBoot : Session := journal_boot (bytes "j") ⟨fun _ => none, []⟩ ⟨150, 0, 0⟩ 0

theorem round_trip_secondBoot :
    RoundTrips (secondBootClosed (bytes "j"))
      (journal_boot (bytes "j") (secondBootClosed (bytes "j")).1 ⟨150, 0, 0⟩ 0) := by
  -- The first boot closes in segment 0, and the segments and links stay in range up to the last close.
  obtain ⟨hseq₀, hns₀, hevent, hseq, hns⟩ :
      (retraced_journal_close firstBoot.w firstBoot.j 0).2.segment_seq < 10000 ∧
      NoSentinel (retraced_journal_close firstBoot.w firstBoot.j 0).1.written ∧
      ((firstBoot.step (bytes "j") (.restart 0 ⟨150, 0, 0⟩ 0)).step (bytes "j")
        (.event 0 (bytes "a") 0 none)).j.segment_seq < 10000 ∧
      (secondBootClosed (bytes "j")).2.segment_seq < 10000 ∧
        NoSentinel (secondBootClosed (bytes "j")).1.written := by
    decide +kernel
  have hops : Along (Session.step (bytes "j")) (RoundTripOk (bytes "j") true) firstBoot
      [.restart 0 ⟨150, 0, 0⟩ 0, .event 0 (bytes "a") 0 none] :=
    ⟨⟨rfl, rfl, hseq₀, hns₀⟩, ⟨by decide, by simp [PayloadOk], hevent⟩, trivial⟩
  have hs : secondBoot (bytes "j") = run (Session.step (bytes "j")) firstBoot
      [.restart 0 ⟨150, 0, 0⟩ 0, .event 0 (bytes "a") 0 none] := rfl
  exact round_trip (fun _ => by decide) (fun _ => markersFit_of_length (by decide))
    ⟨rfl, fun _ => rfl⟩ rfl rfl rfl 0 0 0 hops hs hseq hns

/-- A quotation mark in the base path breaks the markers: what follows the first one is not read. -/
theorem not_round_trip_quote :
    ¬ RoundTrips (secondBootClosed (bytes "a\"b"))
      (journal_boot (bytes "a\"b") (secondBootClosed (bytes "a\"b")).1 ⟨150, 0, 0⟩ 0) := by
  exact fun h => absurd h.events (by decide +kernel)

end Retrace.Retraced
