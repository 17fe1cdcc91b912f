import Retrace.Journal.Proofs.RoundTripProofs
import Retrace.Journal.Proofs.ShutdownProofs

/-!
# The records in a journal

Every line that is written is the record of an agent and a number; those that the journal writes on its
own account are records of the daemon. A replay reads agent and number back.
-/

namespace Retrace.Retraced

open CLib Parson HashChain List

attribute [local irreducible] retraced_journal_line_hash journal_line retraced_journal_event

structure RecordOf (key : Bytes × UInt64) (l : Bytes) : Prop where
  plain : Plain key.1
  exact : doubleToU64 (roundDouble key.2.toNat) = key.2
  line : ∃ ts h payload, l = journal_line ts key.1 key.2 h payload ∧ PayloadOk payload
  short : l.length < 2048

def daemon_key : Bytes × UInt64 := (daemon_id, 0)

theorem recordOf_daemon (hp : PayloadOk (some payload))
    (hlen : (journal_line ts daemon_id 0 h (some payload)).length < 2048) :
    RecordOf daemon_key (journal_line ts daemon_id 0 h (some payload)) :=
  ⟨by decide, by decide, ⟨ts, h, some payload, rfl, hp⟩, hlen⟩

theorem RecordOf.object (hr : RecordOf key l) :
    json_object_get_string (lineObject l) (bytes "agent") = some key.1 ∧
      doubleToU64 (json_object_get_number (lineObject l) (bytes "seq")) = key.2 := by
  obtain ⟨ts, h, payload, rfl, hp⟩ := hr.line
  have hnul := (recordLine_journal_line hr.plain hp hr.short).noNul
  obtain ⟨hobj, -⟩ := payloadText_ok hp
  have heq := journal_line_eq ts key.1 key.2 h payload
  rw [hr.plain.cstr] at heq
  have hplen : (payloadText payload).length ≤ MAX_NESTING := by
    have hlen := hr.short
    rw [heq] at hlen
    simp only [renderObject, renderMembers, renderMember, journalMembers, length_append, length_cons] at hlen
    rw [MAX_NESTING]
    omega
  obtain ⟨o, ho, -, hagent, hseq⟩ := parse_line ts key.2 h hr.plain hobj hplen [newline]
  have hline : lineObject (journal_line ts key.1 key.2 h payload) = some o := by
    rw [lineObject, cstr_eq_self hnul, heq, ho]
    rfl
  rw [hline, hagent, hseq]
  exact ⟨rfl, hr.exact⟩

def DaemonLines (ls : List Bytes) : Prop := ∀ l ∈ ls, RecordOf daemon_key l

theorem daemonLines_nil : DaemonLines [] := fun _ hl => absurd hl not_mem_nil

theorem DaemonLines.append (h : DaemonLines ls) (h' : DaemonLines ls') : DaemonLines (ls ++ ls') :=
  fun l hl => (mem_append.mp hl).elim (h l) (h' l)

section

variable (w : World) (j : Journal) (ts : Int64)

theorem append_void_written (hp : PayloadOk (some payload)) :
    ∃ ls, (journal_append_void w j ts daemon_id 0 (some payload)).1.written = w.written ++ ls ∧
      DaemonLines ls := by
  rcases journal_append_cases w j ts daemon_id 0 (some payload) with ⟨h, -⟩ | ⟨fs', f', h, hlen⟩
  · refine ⟨[], ?_, daemonLines_nil⟩
    rw [journal_append_void, h, append_nil]
    rfl
  · refine ⟨[journal_line ts daemon_id 0 j.prev_hash (some payload)], ?_, ?_⟩
    · rw [journal_append_void, h]
      rfl
    · intro l hl
      rw [mem_singleton.mp hl]
      exact recordOf_daemon hp hlen

theorem close_stream_written : (close_stream w j).written = w.written := by
  unfold close_stream
  split <;> rfl

variable {w j}

theorem rotate_written (hclean : CleanBase j) (hrot : j.rotates = true) (hseq : j.segment_seq + 1 < 10000)
    (hbud : j.budget_bytes = 0) : ∃ ls, (journal_rotate w j ts).1.written = w.written ++ ls ∧ DaemonLines ls := by
  have hplain := fun n => segment_file_plain (hclean.plain hrot) n
  have hfit := hclean.markers hrot j.segment_seq j.prev_hash j.lines hseq
  obtain ⟨ls₁, hw₁, hls₁⟩ := append_void_written w { j with rotating := true } ts
    (payloadOk_segment_closed (hplain j.segment_seq) hfit.1)
  have hnext : (rotate_next w j ts).1.written = w.written ++ ls₁ := by
    rw [rotate_next, close_stream_written]
    exact hw₁
  have hbud' : (rotate_next w j ts).2.budget_bytes = 0 := by
    rcases journal_append_cases w { j with rotating := true } ts daemon_id 0
        (some (snprintf 512 (segment_closed_text (segment_file j.base j.segment_seq) j.prev_hash j.lines)))
      with ⟨h, -⟩ | ⟨fs', f', h, -⟩
    · simp only [rotate_next, rotate_closing, journal_append_void, h]
      exact hbud
    · simp only [rotate_next, rotate_closing, journal_append_void, h]
      exact hbud
  simp only [journal_rotate]
  rw [journal_retain, if_pos hbud']
  obtain ⟨ls₂, hw₂, hls₂⟩ := append_void_written (rotate_next w j ts).1 (rotate_next w j ts).2 ts
    (payloadOk_segment_opened (hplain (j.segment_seq + 1)) (hplain j.segment_seq) hfit.2)
  refine ⟨ls₁ ++ ls₂, ?_, hls₁.append hls₂⟩
  rw [hw₂, hnext, append_assoc]

theorem event_written (hclean : CleanBase j) (hbud : j.budget_bytes = 0) {agent_id : Bytes} {seq : UInt64}
    {payload : Option Bytes}
      (hseq : (retraced_journal_event w j ts agent_id seq payload).2.2.segment_seq < 10000) :
    ∃ ls, DaemonLines ls ∧ (retraced_journal_event w j ts agent_id seq payload).2.1.written =
        w.written ++ ((if (retraced_journal_event w j ts agent_id seq payload).1 = 0 then
          [journal_line ts agent_id seq j.prev_hash payload] else []) ++ ls) ∧
      ((retraced_journal_event w j ts agent_id seq payload).1 = 0 →
        (journal_line ts agent_id seq j.prev_hash payload).length < 2048) := by
  rcases journal_append_cases w j ts agent_id seq payload with ⟨h, hlong⟩ | ⟨fs', f', h, hlen⟩
  · refine ⟨[], daemonLines_nil, ?_, ?_⟩
    · simp [retraced_journal_event, h]
    · simp [retraced_journal_event, h]
  · generalize hj : j.appended f' (journal_line ts agent_id seq j.prev_hash payload) = j' at h
    generalize hw : World.mk fs' (w.written ++ [journal_line ts agent_id seq j.prev_hash payload]) = w' at h
    by_cases hdue : j'.due ts = true
    · have hevent : retraced_journal_event w j ts agent_id seq payload = (0, journal_rotate w' j' ts) := by
        simp only [retraced_journal_event, h, if_pos hdue]
      have hrot : j'.rotates = true := by
        simp only [Journal.due, Bool.and_eq_true] at hdue
        exact hdue.1.2
      rw [hevent] at hseq ⊢
      dsimp only at hseq ⊢
      rw [rotate_segment_seq] at hseq
      have hclean' : CleanBase j' := hj ▸ ⟨hclean.plain, hclean.markers, hclean.prunes⟩
      obtain ⟨ls, hrotate, hls⟩ := rotate_written (w := w') ts hclean' hrot hseq (hj ▸ hbud)
      subst hw
      refine ⟨ls, hls, ?_, fun _ => hlen⟩
      rw [hrotate, if_pos rfl, append_assoc]
    · have hevent : retraced_journal_event w j ts agent_id seq payload = (0, w', j') := by
        simp only [retraced_journal_event, h, if_neg hdue]
      subst hw
      rw [hevent]
      exact ⟨[], daemonLines_nil, by rw [if_pos rfl, append_nil], fun _ => hlen⟩

end

/-- A journal without retention that holds all that was written, which are records with these keys. -/
structure Tracked (path : Bytes) (rot : Rotation) (p : World × Journal) (keys : List (Bytes × UInt64)) : Prop where
  holds : ∃ S, Holds path rot ⟨p.1, p.2, {}, 0⟩ S ∧ S.lo = 0
  records : List.Forall₂ RecordOf keys p.1.written

theorem forall₂_daemonLines {ls : List Bytes} (h : DaemonLines ls) :
    List.Forall₂ RecordOf (replicate ls.length daemon_key) ls := by
  induction ls with
  | nil => exact .nil
  | cons l ls ih => exact .cons (h l mem_cons_self) (ih fun x hx => h x (mem_cons_of_mem l hx))

section

variable {p : World × Journal} {keys : List (Bytes × UInt64)}

theorem tracked_fresh (hfresh : Fresh fs (journal_base path)) (hclean : CleanPath path rot) (now : Int64) :
    Tracked path rot ((journal_boot path ⟨fs, []⟩ rot now).w, (journal_boot path ⟨fs, []⟩ rot now).j) [] := by
  refine ⟨⟨Series.empty, holds_fresh hfresh hclean now, rfl⟩, ?_⟩
  exact .nil

variable (hclean : CleanPath path rot) (hbud : rot.budget_bytes = 0)
include hclean hbud

/-- An event adds its own key when it is accepted, and behind it those of the daemon's records on rotation. -/
theorem Tracked.event (h : Tracked path rot p keys) {ts : Int64} {agent_id : Bytes} {seq : UInt64}
    {payload : Option Bytes} (ha : Plain agent_id) (hexact : doubleToU64 (roundDouble seq.toNat) = seq)
    (hp : PayloadOk payload)
      (hseq : (retraced_journal_event p.1 p.2 ts agent_id seq payload).2.2.segment_seq < 10000) :
    ∃ n, Tracked path rot (retraced_journal_event p.1 p.2 ts agent_id seq payload).2
      (keys ++ ((if (retraced_journal_event p.1 p.2 ts agent_id seq payload).1 =
        0 then [(agent_id, seq)] else []) ++
        replicate n daemon_key)) := by
  obtain ⟨S, hS, hlo⟩ := h.holds
  have hspec := @holds_event ⟨p.1, p.2, {}, 0⟩ path rot S agent_id payload ts seq hclean hS ha hp
  have hwritten := @event_written p.1 p.2 ts (hS.1.cleanBase hclean)
      (hS.1.budget_bytes.trans hbud) agent_id seq payload
  simp only [Session.step] at hspec
  generalize retraced_journal_event p.1 p.2 ts agent_id seq payload = e at *
  obtain ⟨S', hS', hlo'⟩ := hspec hseq
  obtain ⟨ls, hls, hw, hshort⟩ := hwritten hseq
  refine ⟨ls.length, ⟨S', hS', (hlo' hbud).trans hlo⟩, ?_⟩
  rw [hw]
  refine rel_append h.records (rel_append ?_ (forall₂_daemonLines hls))
  split_ifs with hrc
  · exact .cons ⟨ha, hexact, ⟨ts, p.2.prev_hash, payload, rfl, hp⟩, hshort hrc⟩ .nil
  · exact .nil

omit hclean hbud in
theorem Tracked.flush (h : Tracked path rot p keys) : Tracked path rot (retraced_journal_flush p.1 p.2) keys := by
  obtain ⟨S, hS, hlo⟩ := h.holds
  refine ⟨⟨S, holds_flush hS, hlo⟩, ?_⟩
  rw [(flush_spec hS.2.1).2]
  exact h.records

theorem Tracked.daemon_event (h : Tracked path rot p keys) {ts : Int64} {payload : Bytes}
    (hp : PayloadOk (some payload)) (hlen : payload.length < 512) {e : Int × World × Journal}
    (he : retraced_journal_event p.1 p.2 ts daemon_id 0 (some payload) = e) (hseq : e.2.2.segment_seq < 10000) :
    ∃ n, Tracked path rot e.2 (keys ++ replicate (n + 1) daemon_key) := by
  have hfit := daemon_line_fits ts p.2.prev_hash hlen
  have hrc : e.1 = 0 := by
    rcases journal_append_cases p.1 p.2 ts daemon_id 0 (some payload) with ⟨-, hlong⟩ | ⟨fs', f', happ, -⟩
    · omega
    · rw [← he]
      simp only [retraced_journal_event, happ]
      split_ifs <;> rfl
  obtain ⟨n, hn⟩ := @Tracked.event path rot p keys hclean hbud h ts daemon_id 0 (some payload) (by decide)
    (by decide) hp (he ▸ hseq)
  rw [he, if_pos hrc] at hn
  exact ⟨n, hn⟩

theorem Tracked.close (h : Tracked path rot p keys) {now : Int64} {closed : World × Journal}
    (hclosed : retraced_journal_close p.1 p.2 now = closed) (hseq : closed.2.segment_seq < 10000) :
    ∃ n S, Holds path rot ⟨closed.1, closed.2, {}, 0⟩ S ∧ S.lo = 0 ∧ S.live ≠ [] ∧ closed.2.f = none ∧
      List.Forall₂ RecordOf (keys ++ replicate (n + 1) daemon_key) closed.1.written := by
  obtain ⟨S, hS, hlo⟩ := h.holds
  have hspec := @holds_closed ⟨p.1, p.2, {}, 0⟩ path rot S now hclean hS
  have hevent := @Tracked.daemon_event path rot p keys hclean hbud h now journal_closed_record
      payloadOk_journal_closed
    (by decide) _ rfl
  have hw := close_written p.1 p.2 now
  have hs := close_segment_seq p.1 p.2 now
  dsimp only at hspec
  generalize retraced_journal_event p.1 p.2 now daemon_id 0 (some journal_closed_record) = e at *
  rw [hclosed] at hspec hw hs
  obtain ⟨S', hS', hne, hf, hlo'⟩ := hspec hseq
  obtain ⟨n, hn⟩ := hevent (hs ▸ hseq)
  exact ⟨n, S', hS', (hlo' hbud).trans hlo, hne, hf, hw ▸ hn.records⟩

omit hclean hbud in
theorem stored_of_closed (hconf : Configured path rot j) (hrep : Rep w.fs j S)
    (hkept : Kept w S) (hf : j.f = none) (hne : S.live ≠ []) (hlo : S.lo = 0) :
    Stored w.fs (journal_base path) rot.enabled S ∧ S.lo = 0 ∧ S.genesis = 0 ∧ S.lines = w.written := by
  have hst := hrep.stored hf hne
  rw [hconf.base, hconf.rotates] at hst
  exact ⟨hst, hlo, hkept.genesis_eq_zero hlo, hkept.lines_eq hlo⟩

theorem Tracked.stop (hC : EncodesBase64 C) {s : Session} (h : Tracked path rot (s.w, s.j) keys)
    {closed_at sealed_at : Int64} (hclose : CloseOk C s closed_at sealed_at signing_key) :
    ∃ n S, (Stored (s.stop C (.graceful closed_at sealed_at signing_key)).1.fs (journal_base path) rot.enabled S ∧
        S.lo = 0 ∧ S.genesis = 0 ∧ S.lines = (s.stop C (.graceful closed_at sealed_at signing_key)).1.written) ∧
      List.Forall₂ RecordOf (keys ++ replicate (n + 1) daemon_key)
        (s.stop C (.graceful closed_at sealed_at signing_key)).1.written := by
  have hle := close_segment_seq_le C s closed_at sealed_at signing_key
  obtain ⟨hseq, hfew⟩ := hclose
  have hspec := @Tracked.close path rot (s.w, s.j) keys hclean hbud h closed_at _ rfl
  dsimp only at hspec
  replace hspec := hspec (hle.trans_lt hseq)
  by_cases hno : ∀ key ∈ signing_key, ∀ text,
      retraced_journal_sign_file C (retraced_journal_close s.w s.j closed_at).1.fs key
        (retraced_journal_close s.w s.j closed_at).2.path 512 ≠ .ok text
  · rw [stop_unsealed hno]
    generalize retraced_journal_close s.w s.j closed_at = closed at *
    obtain ⟨n, S, ⟨hconf, hrep, hkept⟩, hlo, hne, hf, hkeys⟩ := hspec
    exact ⟨n, S, stored_of_closed hconf hrep hkept hf hne hlo, hkeys⟩
  · push Not at hno
    obtain ⟨key, hkey, text, hsign⟩ := hno
    obtain rfl := Option.mem_def.mp hkey
    rw [stop_sealed rfl hsign] at hseq ⊢
    generalize retraced_journal_close s.w s.j closed_at = closed at *
    obtain ⟨n, S, hS, hlo, hne, hf, hkeys⟩ := hspec
    obtain ⟨hconf, hrep, hkept⟩ := hS
    obtain ⟨hp, hlen, -⟩ := seal_ok hC hrep hkept hf hne hfew hsign
    have hseal := event_spec_of_fits hrep (hconf.cleanBase hclean) hconf.rotating sealed_at 0
        (by decide : Plain daemon_id)
      hp (daemon_line_fits sealed_at closed.2.prev_hash hlen)
    have htracked := @Tracked.daemon_event path rot closed _ hclean hbud
        ⟨⟨S, ⟨hconf, hrep, hkept⟩, hlo⟩, hkeys⟩ sealed_at
      text hp hlen _ rfl
    generalize retraced_journal_event closed.1 closed.2 sealed_at daemon_id 0 (some text) = e at *
    obtain ⟨S', hS', hne', hrotating, f, hf'⟩ := hseal hseq
    obtain ⟨m, hm⟩ := htracked hseq
    have hstream : close_stream e.2.1 e.2.2 = ⟨fclose e.2.1.fs f, e.2.1.written⟩ := by
      simp only [close_stream, hf']
    have hconf' : Configured path rot { e.2.2 with f := none, clean_close := true } := by
      have := hconf.keep hS'.same hrotating
      exact { this with }
    refine ⟨n + m + 1, S', ?_, ?_⟩
    · rw [hstream]
      exact stored_of_closed hconf' (rep_close hS'.rep hf') (hS'.kept hkept) rfl hne'
        ((hS'.lo (hconf.budget_bytes.trans hbud)).trans hlo)
    · rw [hstream]
      have hkeys' := hm.records
      rwa [append_assoc, ← replicate_add, show n + 1 + (m + 1) = n + m + 1 + 1 by omega] at hkeys'

end

end Retrace.Retraced
