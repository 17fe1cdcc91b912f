import Retrace.Journal.Proofs.MarkerProofs

/-!
# The writer keeps a chain

The operations of the writer act on the abstract journal as they should: an append appends a record,
a rotation closes the live segment and appends its markers, retention prunes the oldest segments.
Each of them keeps the relation `Rep` between the writer's state, the files and a `Series`.
-/

namespace Retrace.Retraced

open CLib Parson HashChain

namespace Series

variable (S : Series)

theorem lo_le_seq : S.lo ≤ S.seq := Nat.le_add_right _ _

@[simp]
theorem append_live (hl : RecordLine S.head l) : (S.append l hl).live = S.live ++ [l] := rfl

@[simp]
theorem append_closed (hl : RecordLine S.head l) : (S.append l hl).closed = S.closed := rfl

@[simp]
theorem append_lo (hl : RecordLine S.head l) : (S.append l hl).lo = S.lo := rfl

@[simp]
theorem append_genesis (hl : RecordLine S.head l) : (S.append l hl).genesis = S.genesis := rfl

@[simp]
theorem append_seq (hl : RecordLine S.head l) : (S.append l hl).seq = S.seq := rfl

theorem append_lines (hl : RecordLine S.head l) : (S.append l hl).lines = S.lines ++ [l] := by
  simp [lines]

theorem append_head (hl : RecordLine S.head l) : (S.append l hl).head = lineLink l S.head := by
  rw [head, append_lines, headOf_append]
  rfl

@[simp]
theorem roll_seq (h : S.live ≠ []) : (S.roll h).seq = S.seq + 1 := by
  simp [seq, roll]
  omega

theorem roll_lines (h : S.live ≠ []) : (S.roll h).lines = S.lines := by
  simp [lines, roll]

theorem roll_head (h : S.live ≠ []) : (S.roll h).head = S.head := by
  rw [head, roll_lines]
  rfl

theorem prune_seq (h : S.closed = c :: cs) : (S.prune c cs h).seq = S.seq := by
  simp [seq, prune, h]
  omega

theorem lines_of_prune (h : S.closed = c :: cs) : S.lines = c ++ (S.prune c cs h).lines := by
  simp [lines, prune, h]

theorem prune_head (h : S.closed = c :: cs) : (S.prune c cs h).head = S.head := by
  rw [head, head, S.lines_of_prune h, headOf_append]
  rfl

end Series

section

variable {j : Journal}

theorem Rep.path_ne (hrep : Rep fs j S) {n : Nat} (hn : n ≠ S.seq) : segment_file j.base n ≠ j.path := by
  rw [hrep.path, Journal.liveFile]
  split_ifs
  · intro h
    exact hn ((segment_file_inj hrep.base_len hrep.seq_lt h.symm).symm.trans hrep.seq)
  · exact segment_file_ne_base hrep.base_len n

theorem journal_writer_spec (hlive : LiveRep fs j.path j.f live) : (journal_writer fs j).2.path = j.path ∧
      (journal_writer fs j).2.full (journal_writer fs j).1 = some live.flatten ∧
      ∀ p, p ≠ j.path → (journal_writer fs j).1 p = fs p := by
  cases hf : j.f with
  | some f =>
    simp only [journal_writer, hf, LiveRep] at hlive ⊢
    exact ⟨hlive.1, hlive.2, fun _ _ => trivial⟩
  | none =>
    simp only [journal_writer, hf, LiveRep] at hlive ⊢
    refine ⟨rfl, ?_, fun p hp => fopenAppend_other hp⟩
    rw [fopenAppend_full]
    rcases hlive with h | ⟨h, hnil⟩
    · simp [h]
    · simp [h, hnil]

def Journal.appended (j : Journal) (f : FILE) (line : Bytes) : Journal :=
  { j with
    f := some f
    prev_hash := retraced_journal_line_hash line j.prev_hash
    lines := j.lines + 1
    seg_bytes := j.seg_bytes + line.length }

theorem journal_append_cases (w : World) (j : Journal) (ts : Int64) (agent_id : Bytes) (seq : UInt64)
    (payload : Option Bytes) : (journal_append w j ts agent_id seq payload = none ∧
        2048 ≤ (journal_line ts agent_id seq j.prev_hash payload).length) ∨
      ∃ fs' f', journal_append w j ts agent_id seq payload =
        some (⟨fs', w.written ++ [journal_line ts agent_id seq j.prev_hash payload]⟩,
          j.appended f' (journal_line ts agent_id seq j.prev_hash payload)) ∧
        (journal_line ts agent_id seq j.prev_hash payload).length < 2048 := by
  by_cases h : 2048 ≤ (journal_line ts agent_id seq j.prev_hash payload).length
  · exact .inl ⟨by simp only [journal_append, if_pos h], h⟩
  · right
    simp only [journal_append, if_neg h]
    generalize (if payload_is_durable payload = true then _ else _ : FS × FILE) = flushed
    exact ⟨flushed.1, flushed.2, rfl, Nat.not_le.mp h⟩

theorem journal_append_eq (hlive : LiveRep w.fs j.path j.f live)
    (hlen : (journal_line ts agent_id seq j.prev_hash payload).length < 2048) :
    ∃ fs' f', journal_append w j ts agent_id seq payload =
        some (⟨fs', w.written ++ [journal_line ts agent_id seq j.prev_hash payload]⟩,
          j.appended f' (journal_line ts agent_id seq j.prev_hash payload)) ∧
      LiveRep fs' j.path (some f') (live ++ [journal_line ts agent_id seq j.prev_hash payload]) ∧
      ∀ p, p ≠ j.path → fs' p = w.fs p := by
  obtain ⟨hpath, hfull, hother⟩ := journal_writer_spec hlive
  simp only [journal_append, if_neg (Nat.not_le.mpr hlen)]
  generalize journal_line ts agent_id seq j.prev_hash payload = line
  generalize journal_writer w.fs j = opened at hpath hfull hother
  obtain ⟨fs', f⟩ := opened
  simp only at hpath hfull hother
  have hput : (fputs f line).full fs' = some (live ++ [line]).flatten := by
    rw [fputs_full, hfull]
    simp
  by_cases hd : payload_is_durable payload = true
  · refine ⟨(fflush fs' (fputs f line)).1, (fflush fs' (fputs f line)).2, by simp only [hd]; rfl,
      ⟨hpath, ?_⟩, fun p hp => ?_⟩
    · rw [fflush_full, hput]
    · have hne : p ≠ (fputs f line).path := fun h => hp (h.trans hpath)
      rw [fflush_other hne]
      exact hother p hp
  · exact ⟨fs', fputs f line, by simp only [hd]; rfl, ⟨hpath, hput⟩, hother⟩

/-- A change of the live file alone keeps all other files of the series. -/
theorem Rep.closed_absent {fs' : FS} (hrep : Rep fs j S)
    (hother : ∀ n, n ≠ S.seq → fs' (segment_file j.base n) = fs (segment_file j.base n)) :
    (∀ i ls, S.closed[i]? = some ls → fs' (segment_file j.base (S.lo + i)) = some ls.flatten) ∧
      ∀ n, n < S.lo ∨ S.seq < n → fs' (segment_file j.base n) = none := by
  have hlo := S.lo_le_seq
  refine ⟨fun i ls hi => ?_, fun n hn => (hother n (by omega)).trans (hrep.absent n hn)⟩
  have hlt := (List.getElem?_eq_some_iff.mp hi).1
  exact (hother _ (by simp only [Series.seq]; omega)).trans (hrep.closed i ls hi)

theorem rep_append (hrep : Rep w.fs j S) (ha : Plain agent_id) (hp : PayloadOk payload)
    (hlen : (journal_line ts agent_id seq j.prev_hash payload).length < 2048) :
    ∃ fs' f' hl, journal_append w j ts agent_id seq payload =
        some (⟨fs', w.written ++ [journal_line ts agent_id seq j.prev_hash payload]⟩,
          j.appended f' (journal_line ts agent_id seq j.prev_hash payload)) ∧
      Rep fs' (j.appended f' (journal_line ts agent_id seq j.prev_hash payload))
        (S.append (journal_line ts agent_id seq j.prev_hash payload) hl) := by
  have hl : RecordLine S.head (journal_line ts agent_id seq j.prev_hash payload) := by
    rw [← hrep.head]
    exact recordLine_journal_line ha hp hlen
  obtain ⟨fs', f', heq, hlive, hother⟩ := journal_append_eq hrep.live hlen
  refine ⟨fs', f', hl, heq, ?_⟩
  generalize journal_line ts agent_id seq j.prev_hash payload = line at hl hlive
  obtain ⟨hclosed, habsent⟩ := hrep.closed_absent fun n hn => hother _ (hrep.path_ne hn)
  refine ⟨hrep.base_len, hrep.base_short, hrep.seq_lt, hrep.path, ?_, hrep.seq, hrep.single,
    hclosed, habsent, hlive⟩
  rw [Series.append_head, ← hrep.head, lineLink, cstr_eq_self hl.noNul]
  rfl

theorem rep_roll (hrep : Rep fs j S) (hf : j.f = some f) (hne : S.live ≠ [])
    (hrot : j.rotates = true) (hseq : S.seq + 1 < 10000) (ts : Int64) :
    Rep (fclose fs f) (j.next_segment ts) (S.roll hne) := by
  have hlive := hrep.live
  simp only [LiveRep, hf] at hlive
  have hshort := hrep.base_short hrot
  have hseq' : j.segment_seq + 1 < 10000 := by rw [hrep.seq]; exact hseq
  have hother : ∀ n, n ≠ S.seq → fclose fs f (segment_file j.base n) = fs (segment_file j.base n) :=
    fun n hn => fclose_other (by rw [hlive.1]; exact hrep.path_ne hn)
  have hpath : j.path = segment_file j.base S.seq := by
    rw [hrep.path, Journal.liveFile, if_pos hrot, hrep.seq]
  have hnext : retraced_journal_segment_path j.base (j.segment_seq + 1) 512 =
      segment_file j.base (j.segment_seq + 1) := by
    rw [segment_path_eq (by omega) hseq', segment_file_eq (by omega) hseq']
  refine ⟨hrep.base_len, hrep.base_short, hseq', ?_, ?_, ?_, ?_, ?_, ?_, ?_⟩
  · change _ = if j.rotates = true then segment_file j.base (j.segment_seq + 1) else j.base
    rw [if_pos hrot]
    exact hnext
  · rw [Series.roll_head]
    exact hrep.head
  · rw [Series.roll_seq, ← hrep.seq]
    rfl
  · intro h
    exact absurd (hrot.symm.trans h) (by decide)
  · intro i ls hi
    rcases Nat.lt_or_ge i S.closed.length with hlt | hge
    · have hi' : S.closed[i]? = some ls := by
        rwa [Series.roll, List.getElem?_append_left hlt] at hi
      rw [← hrep.closed i ls hi']
      exact hother (S.lo + i) (by simp only [Series.seq]; omega)
    · -- The segment closed last is the live one.
      rw [Series.roll, List.getElem?_append_right hge] at hi
      rw [List.getElem?_singleton] at hi
      split_ifs at hi with hlast
      obtain rfl := Option.some.inj hi
      have hi0 : i = S.closed.length := by omega
      have hfile : segment_file j.base (S.lo + i) = f.path := by
        rw [hi0, hlive.1, hpath]
        rfl
      change fclose fs f (segment_file j.base (S.lo + i)) = _
      rw [hfile, fclose_content, hlive.2]
  · intro n hn
    have hlo := S.lo_le_seq
    rw [Series.roll_seq] at hn
    change n < S.lo ∨ _ at hn
    rw [← hrep.absent n (by omega)]
    exact hother n (by omega)
  · right
    refine ⟨?_, rfl⟩
    change fclose fs f (retraced_journal_segment_path j.base (j.segment_seq + 1) 512) = none
    rw [hnext, hrep.seq, hother _ (by omega)]
    exact hrep.absent _ (by omega)

theorem rep_prune (hrep : Rep fs j S) (h : S.closed = c :: cs) :
    Rep (removeFile fs (segment_file j.base S.lo)) j (S.prune c cs h) := by
  have hlen : S.closed.length = cs.length + 1 := by simp [h]
  have hlo : S.lo < S.seq := by simp only [Series.seq, hlen]; omega
  have hlt : S.seq < 10000 := hrep.seq ▸ hrep.seq_lt
  have hother : ∀ n, n ≠ S.lo → removeFile fs (segment_file j.base S.lo) (segment_file j.base n) =
      fs (segment_file j.base n) := fun n hn =>
    removeFile_other fun heq => hn (segment_file_inj hrep.base_len (by omega) heq.symm).symm
  have hpath : j.path ≠ segment_file j.base S.lo := (hrep.path_ne (by omega)).symm
  refine ⟨hrep.base_len, hrep.base_short, hrep.seq_lt, hrep.path, ?_, ?_, ?_, ?_, ?_, ?_⟩
  · rw [Series.prune_head]
    exact hrep.head
  · rw [Series.prune_seq]
    exact hrep.seq
  · rw [Series.prune_seq]
    exact hrep.single
  · intro i ls hi
    have hi' : S.closed[i + 1]? = some ls := by rw [h]; exact hi
    change removeFile fs _ (segment_file j.base (S.lo + 1 + i)) = _
    rw [hother _ (by omega), ← hrep.closed _ ls hi']
    congr 2
    omega
  · intro n hn
    rw [Series.prune_seq] at hn
    change n < S.lo + 1 ∨ _ at hn
    by_cases h0 : n = S.lo
    · rw [h0]
      exact removeFile_self _ _
    · rw [hother n h0]
      exact hrep.absent n (by omega)
  · have hl := hrep.live
    change LiveRep _ j.path j.f S.live
    cases hf : j.f with
    | none => simpa only [LiveRep, hf, removeFile_other hpath] using hl
    | some f =>
      simp only [LiveRep, hf] at hl ⊢
      refine ⟨hl.1, ?_⟩
      rw [← hl.2, FILE.full, FILE.full, removeFile_other (by rw [hl.1]; exact hpath)]

end

end Retrace.Retraced
