import Retrace.Journal.Crash
import Retrace.Journal.Proofs.BootProofs
import Retrace.Journal.Proofs.EvidenceProofs

/-!
# Recovery after a crash

The writer appends to whatever the crash left. When that ends within a record, the next record is
appended to the torn one, and neither can be read any more. What was appended can be read back exactly
when the crash left nothing but readable lines.
-/

namespace Retrace.Retraced

open CLib Parson HashChain Runs List Option

section

variable {path : Bytes} {w : World} {rot : Rotation} {content : Bytes}

structure BootedOn (path : Bytes) (w : World) (rot : Rotation) (content : Bytes) (s : Session) :
    Prop where
  world : s.w = w
  rc : s.rc = 0
  unbroken : s.j.chain_broken_at = -1
  events : s.j.replay_events = (readableLines content).length
  head : s.j.prev_hash = headOf lineLink 0 (readableLines content)
  configured : Configured path rot s.j
  path_eq : s.j.path = journal_base path
  closed : s.j.f = none

theorem boot_single (hrot : rot.enabled = false) (hfile : w.fs (journal_base path) = some content)
    (hl : Linked (Carries seeRecord) lineLink 0 (readableLines content))
    (hne : headOf lineLink 0 (readableLines content) ≠ broken_head) (now : Int64) :
    BootedOn path w rot content (journal_boot path w rot now) := by
  have hexit : replayExit (walk seeRecord lineLink 0 (journal_chunks content)).exit ≠ .broken :=
    replayExit_ne_broken_iff.mpr ((walk_exit_iff 0 _).mpr hl)
  have hr' := journal_replay_file_ok hfile (bootSingle path rot now) {} 0 true hexit
  rw [walk_of_readable hl] at hr' hexit
  rw [journal_boot_single hrot, if_neg (by simp [hfile]), hr']
  simp only [replay_result]
  rw [if_neg (show ¬ headOf lineLink 0 (readable seeRecord (journal_chunks content)) = broken_head
    from hne)]
  refine ⟨rfl, rfl, ?_, ?_, rfl, { configured_bootSingle path rot now with }, rfl, rfl⟩
  · simp only [Journal.walked, if_neg hexit]
    rfl
  · exact Nat.zero_add _

theorem boot_single_rc_iff (hrot : rot.enabled = false)
    (hfile : w.fs (journal_base path) = some content) (now : Int64) : (journal_boot path w rot now).rc = 0 ↔
      Linked (Carries seeRecord) lineLink 0 (readableLines content) ∧
        headOf lineLink 0 (readableLines content) ≠ broken_head := by
  constructor
  · intro hrc
    rw [journal_boot_single hrot, if_neg (by simp [hfile])] at hrc
    have hok := (replay_result_ok_iff _).mp hrc
    by_cases hl : Linked (Carries seeRecord) lineLink 0 (readableLines content)
    · obtain ⟨j', r', heq, -⟩ := replay_file_linked hfile hl (bootSingle path rot now) {} true
      rw [heq] at hok
      exact ⟨hl, hok⟩
    · exact absurd (replay_file_not_linked hfile hl _ _ _) hok
  · rintro ⟨hl, hne⟩
    exact (boot_single hrot hfile hl hne now).rc

end

/-- The session has appended its records to the file `left`, behind the link `h`. -/
structure Appending (path left : Bytes) (h : UInt64) (s : Session) : Prop where
  off : s.j.rotates = false
  path_eq : s.j.path = journal_base path
  linked : Linked RecordLine lineLink h s.w.written
  head : s.j.prev_hash = headOf lineLink h s.w.written
  file : LiveRep s.w.fs s.j.path s.j.f (left :: s.w.written)

theorem due_of_not_rotates {j : Journal} (hoff : j.rotates = false) (ts : Int64) : j.due ts = false := by
  simp [Journal.due, hoff]

/-- An event goes behind what the crash left and what was written since. -/
theorem Appending.event (hs : Appending path left h s) (ts : Int64) (seq : UInt64)
    {payload : Option Bytes} (ha : Plain agent_id) (hp : PayloadOk payload) :
    Appending path left h (s.step path (.event ts agent_id seq payload)) := by
  by_cases hfit : (journal_line ts agent_id seq s.j.prev_hash payload).length < 2048
  · have hrec := recordLine_journal_line ha hp hfit
    obtain ⟨fs', f', heq, hlive, -⟩ := journal_append_eq hs.file hfit
    generalize hline : journal_line ts agent_id seq s.j.prev_hash payload = line at *
    have hev : retraced_journal_event s.w s.j ts agent_id seq payload =
        (0, ⟨fs', s.w.written ++ [line]⟩, s.j.appended f' line) := by
      have hoff : (s.j.appended f' line).rotates = false := hs.off
      have hdue := due_of_not_rotates hoff ts
      simp [retraced_journal_event, heq, hdue]
    simp only [Session.step, hev]
    refine ⟨hs.off, hs.path_eq, ?_, ?_, hlive⟩
    · rw [linked_append, ← hs.head]
      exact ⟨hs.linked, hrec, trivial⟩
    · rw [headOf_append, ← hs.head]
      simp [Journal.appended, lineLink, cstr_eq_self hrec.noNul]
  · have hrefused : retraced_journal_event s.w s.j ts agent_id seq payload = (-1, s.w, s.j) := by
      simp [retraced_journal_event, journal_append, Nat.not_lt.mp hfit]
    simpa only [Session.step, hrefused] using hs

theorem Appending.flush (hs : Appending path left h s) : Appending path left h (s.step path .flush) ∧
      (retraced_journal_flush s.w s.j).1.fs (journal_base path) = some (left ++ s.w.written.flatten) := by
  have hfile := hs.file
  cases hf : s.j.f with
  | none =>
    simp only [LiveRep, hf] at hfile
    have hcontent : s.w.fs s.j.path = some (left ++ s.w.written.flatten) := by simpa using hfile
    have hflush : retraced_journal_flush s.w s.j = (s.w, s.j) := by simp [retraced_journal_flush, hf]
    simp only [Session.step, hflush]
    exact ⟨hs, hs.path_eq ▸ hcontent⟩
  | some f =>
    simp only [LiveRep, hf] at hfile
    obtain ⟨hpath, hfull⟩ := hfile
    have hflush : retraced_journal_flush s.w s.j =
        (⟨(fflush s.w.fs f).1, s.w.written⟩, { s.j with f := some (fflush s.w.fs f).2 }) := by
      simp [retraced_journal_flush, hf]
    simp only [Session.step, hflush]
    refine ⟨⟨hs.off, hs.path_eq, hs.linked, hs.head, hpath, ?_⟩, ?_⟩
    · rw [fflush_full]
      exact hfull
    · rw [← hs.path_eq, ← hpath, fflush_content, hfull]
      simp

/-- So are all the events of a run, in their order. -/
theorem Appending.run (hs : Appending path left h s) (hops : Along (Session.step path) AppendOk s ops) :
    Appending path left h (Runs.run (Session.step path) s ops) := by
  refine run_invariant (Appending path left h) ?_ hs hops
  rintro s (⟨ts, agent_id, seq, payload⟩ | _ | _) hs hop
  · exact hs.event ts seq hop.1 hop.2
  · exact hs.flush.1
  · exact absurd hop id

theorem payloadOk_journal_unclean : PayloadOk (some journal_unclean_record) :=
  payloadOk_name (bytes "retrace.journal.unclean") (by decide) (by decide)

section

variable {path left : Bytes} {rot : Rotation} {fs : FS}

theorem appending_main_boot (hrot : rot.enabled = false)
    (hfile : fs (journal_base path) = some left) (hrc : (journal_boot path ⟨fs, []⟩ rot now).rc = 0)
    (hboot : main_boot path ⟨fs, []⟩ rot now = some s) :
    Appending path left (headOf lineLink 0 (readableLines left)) s := by
  obtain ⟨hl, hne⟩ := (boot_single_rc_iff (w := ⟨fs, []⟩) hrot hfile now).mp hrc
  have hb := boot_single (w := ⟨fs, []⟩) hrot hfile hl hne now
  have hstart : Appending path left (headOf lineLink 0 (readableLines left))
      (journal_boot path ⟨fs, []⟩ rot now) := by
    refine ⟨hb.configured.rotates.trans hrot, hb.path_eq, ?_, ?_, ?_⟩
    · rw [hb.world]
      trivial
    · rw [hb.world]
      exact hb.head
    · rw [hb.world, hb.path_eq, hb.closed]
      exact .inl (by simpa using hfile)
  simp only [main_boot] at hboot
  split_ifs at hboot with hbroken hunclean
  · obtain rfl := some.inj hboot
    exact hstart.event now 0 (by decide) payloadOk_journal_unclean
  · obtain rfl := some.inj hboot
    exact hstart

theorem readableLines_append (hunread : unreadBytes left = [])
    (hleft : Linked (Carries seeRecord) lineLink 0 (readableLines left))
    (hws : Linked RecordLine lineLink (headOf lineLink 0 (readableLines left)) ws) :
    readableLines (left ++ ws.flatten) = readableLines left ++ ws := by
  have hcontent : left ++ ws.flatten = (readableLines left ++ ws).flatten := by
    conv_lhs => rw [content_eq left, hunread, append_nil]
    simp
  have hlines : ∀ l ∈ readableLines left ++ ws, IsLine 2048 l := by
    intro l hl
    rcases mem_append.mp hl with hl | hl
    · exact isLine_of_mem_readableLines hl
    · obtain ⟨h', hr⟩ := hws.ok_of_mem hl
      exact hr.isLine
  have hcarries : Linked (Carries seeRecord) lineLink 0 (readableLines left ++ ws) :=
    (linked_append _ _ _).mpr ⟨hleft, carries_of_linked hws⟩
  conv_lhs => rw [hcontent, readableLines, journal_chunks, fgetsAll_flatten hlines]
  exact readable_linked hcarries

theorem unreadBytes_eq_nil_of_append (hws : Linked RecordLine lineLink h ws)
    (hne : ws ≠ []) (hread : readableLines (left ++ ws.flatten) = readableLines left ++ ws) :
    unreadBytes left = [] := by
  obtain ⟨l, ws, rfl⟩ := exists_cons_of_ne_nil hne
  have hrec : RecordLine h l := hws.1
  obtain ⟨b, hl, hb, hlen⟩ := hrec.isLine
  -- The reader gets `l` as the first piece behind the readable lines.
  have hlines : ∀ l ∈ readableLines left, IsLine 2048 l := fun l hl => isLine_of_mem_readableLines hl
  have hchunks : journal_chunks (left ++ (l :: ws).flatten) =
      readableLines left ++ fgetsAll 2048 (unreadBytes left ++ (l :: ws).flatten) := by
    conv_lhs => rw [content_eq left, append_assoc]
    exact fgetsAll_lines hlines _
  have hsplit := readable_append_unread seeRecord (journal_chunks (left ++ (l :: ws).flatten))
  rw [show readable seeRecord (journal_chunks (left ++ (l :: ws).flatten)) =
    readableLines left ++ l :: ws from hread] at hsplit
  rw [hchunks, append_assoc] at hsplit
  have hfirst := congrArg List.flatten (append_cancel_left hsplit)
  rw [flatten_fgetsAll, cons_append, flatten_cons] at hfirst
  generalize (ws ++ unread seeRecord _).flatten = more at hfirst
  have hcomplete := congrArg completeLines hfirst
  rw [hl, append_assoc, singleton_append, completeLines_line hb] at hcomplete
  by_cases hnl : newline ∈ unreadBytes left
  · -- A complete line that could not be read would have to be `l`, which can.
    obtain ⟨b', rest, hu, hb'⟩ := exists_first_line hnl
    rw [hu, append_assoc, cons_append, completeLines_line hb'] at hcomplete
    have hl' : b' ++ [newline] = l := (List.cons.inj hcomplete).1.symm.trans hl.symm
    have hunread := chunks_unreadBytes left
    rw [hu, show b' ++ newline :: rest = (b' ++ [newline]) ++ rest by simp, hl',
      fgetsAll_line hrec.isLine] at hunread
    have hstop := see_head_unread hunread.symm
    rw [hrec.record] at hstop
    cases hstop
  · -- A torn piece would have to be in front of `l` in the same line.
    have hflat : unreadBytes left ++ (l :: ws).flatten =
        (unreadBytes left ++ b) ++ newline :: ws.flatten := by
      simp [hl]
    have hbody : newline ∉ unreadBytes left ++ b := by simp [hnl, hb]
    rw [← hl, hflat, completeLines_line hbody] at hcomplete
    have hline := (List.cons.inj hcomplete).1
    rw [hl, append_left_inj] at hline
    simpa using hline

/-- **Recovery.** A crash left a prefix of any file, the next boot replayed it, and records were
appended since then. A replay accepts and counts them all and ends with the writer's head exactly when
that head is not the link for a broken chain and, if anything was appended, the crash left readable
lines only. -/
theorem crash_recovery_iff (hrot : rot.enabled = false) {content : Bytes} {cut : Nat}
    (hfile : fs (journal_base path) = some (content.take cut)) {now : Int64}
    (hrc : (journal_boot path ⟨fs, []⟩ rot now).rc = 0) {s₀ : Session}
    (hboot : main_boot path ⟨fs, []⟩ rot now = some s₀) {ops : List Op}
    (hops : Along (Session.step path) AppendOk s₀ ops) {s : Session}
    (hs : s = run (Session.step path) s₀ ops) (later : Int64) :
    Recovers path rot (content.take cut) s later ↔
      s.j.prev_hash ≠ broken_head ∧ (s.w.written = [] ∨ unreadBytes (content.take cut) = []) := by
  generalize content.take cut = left at *
  obtain ⟨hl, -⟩ := (boot_single_rc_iff (w := ⟨fs, []⟩) hrot hfile now).mp hrc
  have happ : Appending path left (headOf lineLink 0 (readableLines left)) s := by
    rw [hs]
    exact (appending_main_boot hrot hfile hrc hboot).run hops
  have hdisk := happ.flush.2
  constructor
  · intro h
    have hrc' := (boot_single_rc_iff hrot hdisk later).mp h.rc
    have hhead := (boot_single hrot hdisk hrc'.1 hrc'.2 later).head
    refine ⟨by rw [← h.head, hhead]; exact hrc'.2, ?_⟩
    by_cases hw : s.w.written = []
    · exact .inl hw
    · have hlines := h.lines
      rw [hdisk, getD_some] at hlines
      exact .inr (unreadBytes_eq_nil_of_append happ.linked hw hlines)
  · rintro ⟨hne, hcase⟩
    have hlines : readableLines (left ++ s.w.written.flatten) = readableLines left ++ s.w.written := by
      rcases hcase with hw | hunread
      · simp [hw]
      · exact readableLines_append hunread hl happ.linked
    have hlinked : Linked (Carries seeRecord) lineLink 0 (readableLines (left ++ s.w.written.flatten)) := by
      rw [hlines, linked_append]
      exact ⟨hl, carries_of_linked happ.linked⟩
    have hhead : headOf lineLink 0 (readableLines (left ++ s.w.written.flatten)) = s.j.prev_hash := by
      rw [hlines, headOf_append, happ.head]
    have hb := boot_single hrot hdisk hlinked (by rw [hhead]; exact hne) later
    refine ⟨hb.rc, hb.unbroken, ?_, ?_, hb.head.trans hhead⟩
    · rw [hdisk, getD_some]
      exact hlines
    · rw [hb.events, hlines, length_append]

end

def oneRecord : Bytes := journal_line 0 (bytes "a") 0 0 none

def twoRecords : Bytes := oneRecord ++ journal_line 0 (bytes "a") 1 (retraced_journal_line_hash oneRecord 0) none

def recovered (left : Bytes) : Session :=
  (main_boot (bytes "j") ⟨fileOnly left, []⟩ {} 0).getD (journal_boot (bytes "j") ⟨fileOnly left, []⟩ {} 0)

def recoveredEvent (left : Bytes) : Session :=
  run (Session.step (bytes "j")) (recovered left) [.event 0 (bytes "a") 1 none]

/-- When the crash falls between two records, what is appended is read back. -/
theorem recovers_whole : Recovers (bytes "j") {} (twoRecords.take oneRecord.length)
    (recoveredEvent (twoRecords.take oneRecord.length)) 0 := by
  have hsome : (main_boot (bytes "j") ⟨fileOnly (twoRecords.take oneRecord.length), []⟩ {} 0).isSome = true := by
    decide +kernel
  obtain ⟨s₀, hs₀⟩ := isSome_iff_exists.mp hsome
  have hboot : main_boot (bytes "j") ⟨fileOnly (twoRecords.take oneRecord.length), []⟩ {} 0 =
      some (recovered (twoRecords.take oneRecord.length)) := by
    rw [hs₀, recovered, hs₀]
    rfl
  have hops : Along (Session.step (bytes "j")) AppendOk (recovered (twoRecords.take oneRecord.length))
      [.event 0 (bytes "a") 1 none] :=
    ⟨⟨by decide, by simp [PayloadOk]⟩, trivial⟩
  refine (crash_recovery_iff rfl (Function.update_self ..) (by decide +kernel) hboot hops rfl 0).mpr
    ⟨?_, .inr ?_⟩
  · decide +kernel
  · decide +kernel

/-- When the crash cuts the record, the event appended next is lost with it. -/
theorem not_recovers_torn :
    (journal_boot (bytes "j") ⟨fileOnly (oneRecord.take 10), []⟩ {} 0).rc = 0 ∧
      (main_boot (bytes "j") ⟨fileOnly (oneRecord.take 10), []⟩ {} 0).isSome = true ∧
      ¬ Recovers (bytes "j") {} (oneRecord.take 10) (recoveredEvent (oneRecord.take 10)) 0 := by
  refine ⟨by decide, by decide, fun h => ?_⟩
  exact absurd h.events (by decide +kernel)

end Retrace.Retraced
