import Retrace.Journal.Proofs.ReplayProofs
import Retrace.Journal.Proofs.RotationProofs

/-!
# Booting on a stored journal

`retraced_journal_set_rotation` finds the live segment by counting up from segment 0, and
`retraced_journal_replay` starts the chain from the link 0. On a stored series whose oldest segment is
0 or 1 and whose oldest record carries the link 0 the boot therefore takes up the chain where the
writer left it; on any other it does not.
-/

namespace Retrace.Retraced

open CLib Parson HashChain List

theorem carries_of_linked (hl : Linked RecordLine lineLink h ls) : Linked (Carries seeRecord) lineLink h ls :=
  hl.imp fun _ _ hr => hr.record

theorem chunks_records (hl : Linked RecordLine lineLink h ls) : journal_chunks ls.flatten = ls :=
  fgetsAll_flatten fun l hm => by
    obtain ⟨h', hr⟩ := hl.ok_of_mem hm
    exact hr.isLine

theorem chunks_torn (hl : Linked RecordLine lineLink h ls) (ht : Torn part) :
    journal_chunks (ls.flatten ++ part) = ls ++ if part = [] then [] else [part] := by
  have hlines : ∀ l ∈ ls, IsLine 2048 l := fun l hm => by
    obtain ⟨h', hr⟩ := hl.ok_of_mem hm
    exact hr.isLine
  have := @fgetsAll_begins ls 2048 ls.length hlines part ht.1 fun _ => ht.2
  rwa [take_length] at this

theorem seeRecord_torn (hnl : newline ∉ part) : seeRecord part = .stop := by
  have hlast : (cstr part).getLast? ≠ some newline := fun h =>
    hnl ((takeWhile_sublist _).subset (mem_of_getLast? h))
  simp [seeRecord, hlast]

theorem cleanAfter_torn (hnl : newline ∉ part) : cleanAfter b part = b := by
  have hlast : (cstr part).getLast? ≠ some newline := fun h =>
    hnl ((takeWhile_sublist _).subset (mem_of_getLast? h))
  simp [cleanAfter, hlast]

theorem replay_file_records (hl : Linked RecordLine lineLink h ls) (ht : Torn part)
    (hc : fs path = some (ls.flatten ++ part)) (j : Journal)
    (r : Registry) (last : Bool) :
    journal_replay_file fs j r path h last =
      (headOf lineLink h ls,
        { j with
          replay_events := j.replay_events + ls.length
          replay_ok := j.replay_ok + ls.length
          clean_close := ls.foldl cleanAfter j.clean_close
          lines := if last then UInt64.ofNat ls.length else j.lines }, ls.foldl replay_line r) := by
  have hchunks := chunks_torn hl ht
  have hcarries := carries_of_linked hl
  by_cases hpart : part = []
  · rw [if_pos hpart, append_nil] at hchunks
    have hwalk := walk_linked hcarries
    rw [journal_replay_file_ok hc j r h last (by rw [hchunks, hwalk]; simp [replayExit]), hchunks, hwalk]
    simp [Journal.walked, replayExit, take_of_length_le]
  · rw [if_neg hpart] at hchunks
    have hwalk : walk seeRecord lineLink h (ls ++ [part]) = ⟨ls, headOf lineLink h ls, .stopped⟩ := by
      rw [walk_append hcarries, walk_cons_stop (seeRecord_torn ht.1)]
      simp
    rw [journal_replay_file_ok hc j r h last (by rw [hchunks, hwalk]; simp [replayExit]), hchunks, hwalk]
    simp [Journal.walked, replayExit, take_of_length_le, cleanAfter_torn ht.1]

theorem replay_segments_records (segs : List (List Bytes)) (lo : Nat) (prev : UInt64)
    (j : Journal) (r : Registry) (ht : Torn part)
    (hfiles : ∀ i ls, segs[i]? = some ls → fs (segment_file j.base (lo + i)) =
      some (ls.flatten ++ if i + 1 = segs.length then part else []))
        (hl : Linked RecordLine lineLink prev segs.flatten)
    (hns : ∀ i, headOf lineLink prev (segs.take (i + 1)).flatten ≠ broken_head) :
    ∃ m n, replay_segments fs (range' lo segs.length) j r prev =
      (headOf lineLink prev segs.flatten,
        { j with
          replay_events := j.replay_events + segs.flatten.length
          replay_ok := m
          clean_close := segs.flatten.foldl cleanAfter j.clean_close
          lines := n }, segs.flatten.foldl replay_line r) := by
  induction segs generalizing lo prev j r with
  | nil => exact ⟨j.replay_ok, j.lines, rfl⟩
  | cons ls segs ih =>
    rw [flatten_cons, linked_append] at hl
    have htorn : Torn (if 0 + 1 = (ls :: segs).length then part else []) := by
      split_ifs
      · exact ht
      · exact torn_nil
    have hr1 := replay_file_records hl.1 htorn (by simpa using hfiles 0 ls rfl) j r (lo == j.segment_seq)
    have hne : headOf lineLink prev ls ≠ broken_head := by simpa using hns 0
    set j1 : Journal := { j with
      replay_events := j.replay_events + ls.length
      replay_ok := j.replay_ok + ls.length
      clean_close := ls.foldl cleanAfter j.clean_close
      lines := if (lo == j.segment_seq) = true then UInt64.ofNat ls.length else j.lines } with hj1
    have hfiles1 : ∀ i ls', segs[i]? = some ls' → fs (segment_file j1.base (lo + 1 + i)) =
        some (ls'.flatten ++ if i + 1 = segs.length then part else []) := by
      intro i ls' hi
      have := hfiles (i + 1) ls' (by simpa using hi)
      rwa [length_cons, Nat.add_comm i 1, ← Nat.add_assoc, Nat.add_comm 1 i,
        if_congr Nat.add_right_cancel_iff rfl rfl] at this
    have hns1 : ∀ i, headOf lineLink (headOf lineLink prev ls) (segs.take (i + 1)).flatten ≠
        broken_head := by
      intro i
      have := hns (i + 1)
      rwa [take_succ_cons, flatten_cons, headOf_append] at this
    obtain ⟨m, n, hr'⟩ := ih (lo + 1) (headOf lineLink prev ls) j1 _ hfiles1 hl.2 hns1
    refine ⟨m, n, ?_⟩
    rw [length_cons, range'_succ, replay_segments, hr1]
    simp only [if_neg hne]
    rw [hr', flatten_cons, headOf_append]
    simp [hj1, Nat.add_assoc]

theorem replay_segments_mismatch (segs : List (List Bytes)) (lo : Nat) {prev genesis : UInt64}
    (j : Journal) (r : Registry)
    (hfiles : ∀ i ls, segs[i]? = some ls → fs (segment_file j.base (lo + i)) = some ls.flatten)
    (hl : Linked RecordLine lineLink genesis segs.flatten) (hne : segs.flatten ≠ [])
    (hgen : genesis ≠ prev) (hprev : prev ≠ broken_head) :
    (replay_segments fs (range' lo segs.length) j r prev).1 = broken_head := by
  induction segs generalizing lo j r with
  | nil => exact absurd rfl hne
  | cons ls segs ih =>
    rw [length_cons, range'_succ, replay_segments]
    have hfile := hfiles 0 ls rfl
    cases ls with
    | nil =>
      -- An empty segment leaves the head where it is.
      have hnil : Linked RecordLine lineLink prev [] := trivial
      have hr1 := replay_file_records hnil torn_nil hfile j r (lo == j.segment_seq)
      rw [Nat.add_zero] at hr1
      have hhead : headOf lineLink prev ([] : List Bytes) ≠ broken_head := hprev
      rw [hr1]
      simp only [if_neg hhead]
      refine ih (lo + 1) _ _ ?_ (by simpa using hl) (by simpa using hne)
      intro i ls' hi
      have := hfiles (i + 1) ls' (by simpa using hi)
      rwa [Nat.add_comm i 1, ← Nat.add_assoc] at this
    | cons l ls =>
      rw [flatten_cons, linked_append] at hl
      have hwalk : walk seeRecord lineLink prev (l :: ls) = ⟨[], prev, .mismatch⟩ :=
        walk_cons_mismatch hl.1.1.record hgen ls
      have hbroken : replayExit (walk seeRecord lineLink prev
          (journal_chunks (l :: ls).flatten)).exit = .broken := by
        rw [chunks_records hl.1, hwalk]
        rfl
      obtain ⟨r1, hr1⟩ := journal_replay_file_broken hfile j r prev (lo == j.segment_seq) hbroken
      rw [Nat.add_zero] at hr1
      rw [hr1]
      simp

theorem resolve_segment_eq (n k m : Nat) (hkm : k ≤ m) (hn : m ≤ k + n)
    (hrow : ∀ i, k < i → i ≤ m → segment_exists fs base i = true)
    (hend : segment_exists fs base (m + 1) = false) : resolve_segment fs base n k = m := by
  induction n generalizing k with
  | zero =>
    change k = m
    omega
  | succ n ih =>
    rw [resolve_segment]
    by_cases hk : k = m
    · rw [hk, hend]
      rfl
    · rw [if_pos (hrow (k + 1) (by omega) (by omega))]
      exact ih (k + 1) (by omega) (by omega) fun i hi hm => hrow i (by omega) hm

namespace Stored

theorem files (h : Stored fs base true S part)
    (hi : (S.closed ++ [S.live])[i]? = some ls) : fs (segment_file base (S.lo + i)) =
      some (ls.flatten ++ if i + 1 = (S.closed ++ [S.live]).length then part else []) := by
  rcases Nat.lt_or_ge i S.closed.length with hlt | hge
  · rw [if_neg (by simp; omega), append_nil]
    exact h.closed i ls (by rwa [getElem?_append_left hlt] at hi)
  · rw [getElem?_append_right hge] at hi
    rw [getElem?_singleton] at hi
    split_ifs at hi with hlast
    obtain rfl := Option.some.inj hi
    rw [show i = S.closed.length by omega, if_pos (by simp)]
    exact h.live

theorem exists_iff (h : Stored fs base true S part) (n : Nat) :
    segment_exists fs base n = true ↔ S.lo ≤ n ∧ n ≤ S.seq := by
  constructor
  · intro hn
    by_contra hcon
    have := h.absent n (by omega)
    simp [segment_exists, this] at hn
  · rintro ⟨hlo, hhi⟩
    have hlt : n - S.lo < (S.closed ++ [S.live]).length := by
      simp only [length_append, length_singleton]
      simp only [Series.seq] at hhi
      omega
    have := h.files (getElem?_eq_getElem hlt)
    rw [Nat.add_sub_cancel' hlo] at this
    simp [segment_exists, this]

theorem segment_lo (h : Stored fs base true S part) (hhi : S.lo ≤ hi) :
    retraced_journal_segment_lo fs base hi = some S.lo := by
  rw [segment_lo_eq_some]
  refine ⟨(h.exists_iff _).mpr ⟨le_rfl, S.lo_le_seq⟩, hhi, fun n hn => ?_⟩
  rw [Bool.eq_false_iff]
  intro hex
  have := ((h.exists_iff n).mp hex).1
  omega

theorem resolve (h : Stored fs base true S part) (hlo : S.lo ≤ 1) : resolve_segment fs base 9999 0 = S.seq := by
  have := h.seq_lt
  refine resolve_segment_eq 9999 0 S.seq (Nat.zero_le _) (by omega)
    (fun i hi him => (h.exists_iff i).mpr ⟨by omega, him⟩) ?_
  rw [Bool.eq_false_iff]
  intro hex
  have := ((h.exists_iff _).mp hex).2
  omega

theorem resolve_gap (h : Stored fs base true S part) (hlo : 2 ≤ S.lo) : resolve_segment fs base 9999 0 = 0 := by
  rw [resolve_segment, if_neg]
  intro hex
  have := ((h.exists_iff _).mp hex).1
  omega

end Stored

theorem take_flatten_prefix (segs : List (List α)) (k : Nat) :
    ∃ m, (segs.take k).flatten = segs.flatten.take m := by
  have h : (segs.take k).flatten <+: segs.flatten := by
    conv_rhs => rw [← take_append_drop k segs, flatten_append]
    exact prefix_append _ _
  exact ⟨_, prefix_iff_eq_take.mp h⟩

theorem Series.segments_flatten (S : Series) : (S.closed ++ [S.live]).flatten = S.lines := by
  simp [Series.lines]

theorem Series.linked_first (S : Series)
    (hsegs : S.closed ++ [S.live] = seg :: rest) : Linked RecordLine lineLink S.genesis seg := by
  have h := S.linked
  have hflat : S.closed.flatten ++ S.live = seg ++ rest.flatten := by
    rw [← flatten_cons, ← hsegs, S.segments_flatten]
    rfl
  rw [hflat, linked_append] at h
  exact h.1

section

variable {fs : FS} {j : Journal} {S : Series}

def ReplaysTo (fs : FS) (j : Journal) (S : Series) : Prop :=
  ∃ m n, retraced_journal_replay fs j {} =
    (0, { j with
      replay_ok := m
      replay_events := S.lines.length
      chain_broken_at := -1
      clean_close := S.lines.foldl cleanAfter false
      lines := n
      prev_hash := S.head }, S.lines.foldl replay_line {})

theorem NoSentinel.head_ne (hgen : S.genesis = 0) (hns : NoSentinel S.lines) : S.head ≠ broken_head := by
  have := hns S.lines.length
  rwa [take_length, ← hgen] at this

theorem replay_stored_rotating (hrot : j.rotates = true) (hst : Stored fs j.base true S part)
    (hseq : j.segment_seq = S.seq) (hgen : S.genesis = 0) (hns : NoSentinel S.lines) : ReplaysTo fs j S := by
  have hlinked : Linked RecordLine lineLink 0 (S.closed ++ [S.live]).flatten := by
    rw [S.segments_flatten, ← hgen]
    exact S.linked
  have hns' : ∀ i, headOf lineLink 0 ((S.closed ++ [S.live]).take (i + 1)).flatten ≠ broken_head := by
    intro i
    obtain ⟨m, hm⟩ := take_flatten_prefix (S.closed ++ [S.live]) (i + 1)
    rw [hm, S.segments_flatten]
    exact hns m
  have hcount : S.seq + 1 - S.lo = (S.closed ++ [S.live]).length := by
    simp only [Series.seq, length_append, length_singleton]
    omega
  have hhead : headOf lineLink 0 S.lines = S.head := by rw [← hgen]; rfl
  set j0 : Journal := { j with
    replay_ok := 0
    replay_events := 0
    chain_broken_at := -1
    clean_close := false } with hj0
  obtain ⟨m, n, hr'⟩ := replay_segments_records (S.closed ++ [S.live]) S.lo 0 j0 {} hst.torn
    (fun i ls hi => hst.files hi) hlinked hns'
  rw [S.segments_flatten, hhead] at hr'
  have hrot0 : j0.rotates = true := hrot
  refine ⟨m, n, ?_⟩
  rw [retraced_journal_replay, ← hj0]
  simp only [hrot0, if_true, show j0.base = j.base from rfl, show j0.segment_seq = S.seq from hseq,
    hst.segment_lo S.lo_le_seq, hcount, hr', replay_result, if_neg (hns.head_ne hgen)]
  simp [hj0, hseq]

theorem replay_stored_single (hrot : j.rotates = false) (hst : Stored fs j.base false S part)
    (hpath : j.path = j.base) (hgen : S.genesis = 0) (hns : NoSentinel S.lines) : ReplaysTo fs j S := by
  have hclosed : S.closed = [] := by
    have := hst.single rfl
    simp only [Series.seq] at this
    exact eq_nil_of_length_eq_zero (by omega)
  have hlines : S.lines = S.live := by simp [Series.lines, hclosed]
  have hfile : fs j.path = some (S.lines.flatten ++ part) := by
    rw [hpath, hlines]
    exact hst.live
  have hlinked : Linked RecordLine lineLink 0 S.lines := by rw [← hgen]; exact S.linked
  have hhead : headOf lineLink 0 S.lines = S.head := by rw [← hgen]; rfl
  set j0 : Journal := { j with
    replay_ok := 0
    replay_events := 0
    chain_broken_at := -1
    clean_close := false } with hj0
  have hrot0 : j0.rotates = false := hrot
  have hr' := replay_file_records hlinked hst.torn hfile j0 {} true
  rw [hhead] at hr'
  refine ⟨S.lines.length, UInt64.ofNat S.lines.length, ?_⟩
  rw [retraced_journal_replay, ← hj0]
  simp only [hrot0, show j0.path = j.path from rfl, hfile, hr', replay_result, if_neg (hns.head_ne hgen)]
  simp [hj0]

theorem replay_stored (hst : Stored fs j.base j.rotates S part) (hseq : j.segment_seq = S.seq)
    (hpath : j.path = j.liveFile) (hgen : S.genesis = 0) (hns : NoSentinel S.lines) : ReplaysTo fs j S := by
  cases hrot : j.rotates with
  | true => exact replay_stored_rotating hrot (hrot ▸ hst) hseq hgen hns
  | false =>
    refine replay_stored_single hrot (hrot ▸ hst) ?_ hgen hns
    rw [hpath, Journal.liveFile, hrot]
    rfl

end

structure Configured (path : Bytes) (rot : Rotation) (j : Journal) : Prop where
  base : j.base = journal_base path
  rotate_bytes : j.rotate_bytes = rot.rotate_bytes
  rotate_seconds : j.rotate_seconds = rot.rotate_seconds
  budget_bytes : j.budget_bytes = rot.budget_bytes
  rotating : j.rotating = false

theorem Configured.rotates (h : Configured path rot j) : j.rotates = rot.enabled := by
  simp [Journal.rotates, Rotation.enabled, h.rotate_bytes, h.rotate_seconds]

theorem journal_base_length (path : Bytes) : (journal_base path).length ≤ 511 :=
  snprintf_length_le 512 _

section

variable {path : Bytes} {rot : Rotation}

/-- The journal that the replay at boot starts from, when rotation is on and segment `seq` is taken
for the live one. -/
def bootJournal (path : Bytes) (rot : Rotation) (now : Int64) (seq : Nat) : Journal where
  path := retraced_journal_segment_path (journal_base path) seq 512
  base := journal_base path
  chain_broken_at := -1
  rotate_bytes := rot.rotate_bytes
  rotate_seconds := rot.rotate_seconds
  budget_bytes := rot.budget_bytes
  last_rotate_ts := now.toInt
  segment_seq := seq

def bootSingle (path : Bytes) (rot : Rotation) (now : Int64) : Journal where
  path := journal_base path
  base := journal_base path
  chain_broken_at := -1
  rotate_bytes := rot.rotate_bytes
  rotate_seconds := rot.rotate_seconds
  budget_bytes := rot.budget_bytes
  last_rotate_ts := now.toInt

theorem set_rotation_open : retraced_journal_set_rotation fs (retraced_journal_open path) rot now =
      if rot.enabled then bootJournal path rot now (resolve_segment fs (journal_base path) 9999 0)
      else bootSingle path rot now := by
  cases h : rot.enabled <;>
    simp [retraced_journal_set_rotation, retraced_journal_open, h, journal_base, bootJournal, bootSingle]

theorem journal_boot_rotating (hrot : rot.enabled = true) (now : Int64)
    (hseq : resolve_segment w.fs (journal_base path) 9999 0 = seq) :
    journal_boot path w rot now =
      let replayed : Int × Journal × Registry :=
        match retraced_journal_segment_lo w.fs (journal_base path) seq with
        | none => (0, bootJournal path rot now seq, {})
        | some lo => replay_result (replay_segments w.fs (range' lo (seq + 1 - lo))
            (bootJournal path rot now seq) {} 0)
      ⟨w, replayed.2.1, replayed.2.2, replayed.1⟩ := by
  have hset : retraced_journal_set_rotation w.fs (retraced_journal_open path) rot now =
      bootJournal path rot now seq := by
    rw [set_rotation_open, hseq, if_pos hrot]
  have hconf : Configured path rot (bootJournal path rot now seq) := ⟨rfl, rfl, rfl, rfl, rfl⟩
  have hreset : { bootJournal path rot now seq with
      replay_ok := 0, replay_events := 0, chain_broken_at := -1, clean_close := false } =
      bootJournal path rot now seq := rfl
  simp only [journal_boot, hset, retraced_journal_replay]
  rw [hreset, if_pos (hconf.rotates.trans hrot)]
  rfl

theorem configured_bootSingle (path : Bytes) (rot : Rotation) (now : Int64) :
    Configured path rot (bootSingle path rot now) := ⟨rfl, rfl, rfl, rfl, rfl⟩

theorem journal_boot_single (hrot : rot.enabled = false) (now : Int64) :
    journal_boot path w rot now =
      let replayed : Int × Journal × Registry :=
        if (w.fs (journal_base path)).isNone then (-1, bootSingle path rot now, {})
        else replay_result
          (journal_replay_file w.fs (bootSingle path rot now) {} (journal_base path) 0 true)
      ⟨w, replayed.2.1, replayed.2.2, replayed.1⟩ := by
  have hset : retraced_journal_set_rotation w.fs (retraced_journal_open path) rot now =
      bootSingle path rot now := by
    simp [set_rotation_open, hrot]
  have hoff : ¬ (bootSingle path rot now).rotates = true := by
    simp [(configured_bootSingle path rot now).rotates, hrot]
  have hreset : { bootSingle path rot now with
      replay_ok := 0, replay_events := 0, chain_broken_at := -1, clean_close := false } =
      bootSingle path rot now := rfl
  simp only [journal_boot, hset, retraced_journal_replay]
  rw [hreset, if_neg hoff]
  rfl

end

/-- A boot that replays the chain of `S`. -/
structure Replayed (path : Bytes) (w : World) (rot : Rotation) (S : Series) (s : Session) : Prop where
  world : s.w = w
  rc : s.rc = 0
  unbroken : s.j.chain_broken_at = -1
  events : s.j.replay_events = S.lines.length
  clean : s.j.clean_close = S.lines.foldl cleanAfter false
  head : s.j.prev_hash = S.head
  configured : Configured path rot s.j
  path_eq : s.j.path = s.j.liveFile
  seq : s.j.segment_seq = S.seq
  closed : s.j.f = none

/-- A boot that takes up the chain of `S`. -/
structure Booted (path : Bytes) (w : World) (rot : Rotation) (S : Series) (s : Session) : Prop extends
    Replayed path w rot S s where
  rep : Rep w.fs s.j S

section

variable {w : World}

theorem set_rotation_stored (hst : Stored w.fs (journal_base path) rot.enabled S part) (hlo : S.lo ≤ 1) :
    Configured path rot (retraced_journal_set_rotation w.fs (retraced_journal_open path) rot now) ∧
      (retraced_journal_set_rotation w.fs (retraced_journal_open path) rot now).segment_seq = S.seq ∧
      (retraced_journal_set_rotation w.fs (retraced_journal_open path) rot now).path =
        (retraced_journal_set_rotation w.fs (retraced_journal_open path) rot now).liveFile := by
  set j0 := retraced_journal_set_rotation w.fs (retraced_journal_open path) rot now with hj0
  rw [set_rotation_open] at hj0
  cases hrot : rot.enabled with
  | true =>
    have hshort := hst.base_short hrot
    have hconf : Configured path rot j0 := by
      rw [hj0, if_pos hrot]
      exact ⟨rfl, rfl, rfl, rfl, rfl⟩
    rw [if_pos hrot, Stored.resolve (hrot ▸ hst) hlo] at hj0
    have hseq : j0.segment_seq = S.seq := congrArg Journal.segment_seq hj0
    refine ⟨hconf, hseq, (congrArg Journal.path hj0).trans ?_⟩
    rw [Journal.liveFile, hconf.rotates, hseq, hconf.base, if_pos hrot, segment_file_eq hst.base_len hst.seq_lt]
    exact segment_path_eq (by omega) hst.seq_lt
  | false =>
    rw [if_neg (by simp [hrot])] at hj0
    have hconf : Configured path rot j0 := hj0 ▸ configured_bootSingle path rot now
    refine ⟨hconf, (congrArg Journal.segment_seq hj0).trans (hst.single hrot).symm,
      (congrArg Journal.path hj0).trans ?_⟩
    rw [Journal.liveFile, hconf.rotates, hconf.base, hrot]
    rfl

theorem boot_reads_back (hst : Stored w.fs (journal_base path) rot.enabled S part) (hlo : S.lo ≤ 1)
    (hgen : S.genesis = 0) (hns : NoSentinel S.lines) (now : Int64) :
    Replayed path w rot S (journal_boot path w rot now) ∧
      (journal_boot path w rot now).r = S.lines.foldl replay_line {} := by
  set j0 := retraced_journal_set_rotation w.fs (retraced_journal_open path) rot now with hj0
  obtain ⟨hconf, hseq, hpath⟩ := set_rotation_stored hst hlo
  rw [← hj0] at hconf hseq hpath
  have hst0 : Stored w.fs j0.base j0.rotates S part := by rw [hconf.base, hconf.rotates]; exact hst
  have hf : j0.f = none := by
    rw [hj0, set_rotation_open]
    split_ifs <;> rfl
  obtain ⟨m, n, hr'⟩ := replay_stored hst0 hseq hpath hgen hns
  have hboot : journal_boot path w rot now = ⟨w, (retraced_journal_replay w.fs j0 {}).2.1,
      (retraced_journal_replay w.fs j0 {}).2.2, (retraced_journal_replay w.fs j0 {}).1⟩ := rfl
  rw [hboot, hr']
  exact ⟨⟨rfl, rfl, rfl, rfl, rfl, rfl, { hconf with }, hpath, hseq, hf⟩, rfl⟩

theorem boot_stored (hst : Stored w.fs (journal_base path) rot.enabled S) (hlo : S.lo ≤ 1)
    (hgen : S.genesis = 0) (hns : NoSentinel S.lines) (now : Int64) :
    Booted path w rot S (journal_boot path w rot now) := by
  have hr := (boot_reads_back hst hlo hgen hns now).1
  have hbase := hr.configured.base
  have hrot := hr.configured.rotates
  refine ⟨hr, ?_, ?_, ?_, hr.path_eq, hr.head, hr.seq, ?_, ?_, ?_, ?_⟩
  · exact hbase ▸ hst.base_len
  · exact fun h => hbase ▸ hst.base_short (hrot ▸ h)
  · exact hr.seq ▸ hst.seq_lt
  · exact fun h => hst.single (hrot ▸ h)
  · exact hbase ▸ hst.closed
  · exact hbase ▸ hst.absent
  · rw [hr.closed, hr.path_eq, Journal.liveFile, hr.seq, hrot, hbase]
    left
    simpa using hst.live

theorem boot_fresh (hfresh : Fresh w.fs (journal_base path))
    (hshort : rot.enabled = true → (journal_base path).length ≤ 506) (now : Int64) :
    Configured path rot (journal_boot path w rot now).j ∧ (journal_boot path w rot now).w = w ∧
      Rep w.fs (journal_boot path w rot now).j Series.empty := by
  have hnone : ∀ n, segment_exists w.fs (journal_base path) n = false := fun n => by
    simp [segment_exists, hfresh.2 n]
  have hres : resolve_segment w.fs (journal_base path) 9999 0 = 0 := by
    simp [resolve_segment, hnone]
  have hlen := journal_base_length path
  -- The replay finds nothing and changes nothing.
  obtain ⟨j, rc, hboot, hconf, hpath, hseq, hhead, hf⟩ : ∃ j rc, journal_boot path w rot now = ⟨w, j, {}, rc⟩ ∧
      Configured path rot j ∧ j.path = j.liveFile ∧ j.segment_seq = 0 ∧ j.prev_hash = 0 ∧ j.f = none := by
    cases hrot : rot.enabled with
    | true =>
      have hconf : Configured path rot (bootJournal path rot now 0) := ⟨rfl, rfl, rfl, rfl, rfl⟩
      refine ⟨_, 0, ?_, hconf, ?_, rfl, rfl, rfl⟩
      · simp [journal_boot_rotating hrot now hres, retraced_journal_segment_lo, hnone]
      · have := hshort hrot
        rw [Journal.liveFile, hconf.rotates, hrot]
        simp only [bootJournal, if_true]
        rw [segment_path_eq (by omega) (by norm_num), segment_file_eq hlen (by norm_num)]
    | false =>
      have hconf := configured_bootSingle path rot now
      refine ⟨_, -1, ?_, hconf, ?_, rfl, rfl, rfl⟩
      · simp [journal_boot_single hrot now, hfresh.1]
      · rw [Journal.liveFile, hconf.rotates, hrot]
        rfl
  rw [hboot]
  refine ⟨hconf, rfl, ?_⟩
  exact {
    base_len := hconf.base ▸ hlen
    base_short := fun h => hconf.base ▸ hshort (hconf.rotates ▸ h)
    seq_lt := by rw [hseq]; norm_num
    path := hpath
    head := hhead
    seq := hseq
    single := fun _ => rfl
    closed := by simp [Series.empty]
    absent := fun n _ => hconf.base ▸ hfresh.2 n
    live := by
      show LiveRep w.fs j.path j.f []
      rw [hf, hpath, Journal.liveFile, hconf.base]
      refine .inr ⟨?_, rfl⟩
      split_ifs
      · exact hfresh.2 _
      · exact hfresh.1 }

end

end Retrace.Retraced
