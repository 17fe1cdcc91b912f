import Retrace.Ctl.Query
import Retrace.Journal.Proofs.EvidenceProofs
import Retrace.Journal.Proofs.RotationProofs

/-!
# What a query refuses

Every file is walked from its own link, and what matches is emitted on the way. So a query counts
segments that do not join up, and a refusal comes after what was emitted in front of the break.
-/

namespace Retrace.Ctl

open CLib Parson HashChain Retraced List

section

variable {prev : UInt64}

theorem query_loop_stop (hs : seeRecord chunk = .stop) : query_loop ast (chunk :: rest) prev = ([], true) := by
  unfold seeRecord at hs
  split_ifs at hs with hnl
  · simp [query_loop, hnl]
  · split at hs
    · rename_i hv
      simp only [query_loop, if_neg hnl, hv]
    · split at hs <;> cases hs

theorem query_loop_broken (hs : seeRecord chunk = .missing ∨ ∃ v, seeRecord chunk = .link v ∧
    v ≠ prev) : query_loop ast (chunk :: rest) prev = ([], false) := by
  unfold seeRecord at hs
  split_ifs at hs with hnl
  · simp at hs
  · split at hs
    · simp at hs
    · rename_i v hv
      split at hs
      · rename_i hp
        simp only [query_loop, if_neg hnl, hv, hp]
      · rename_i p hp
        obtain hne : strtoull16 p ≠ prev := by simpa using hs
        simp only [query_loop, if_neg hnl, hv, hp, if_pos hne]

theorem query_loop_carries (hs : seeRecord chunk = .link prev) : query_loop ast (chunk :: rest) prev =
      ((if lineMatches ast (cstr chunk) then [cstr chunk] else []) ++
        (query_loop ast rest (lineLink chunk prev)).1,
        (query_loop ast rest (lineLink chunk prev)).2) := by
  unfold seeRecord at hs
  split_ifs at hs with hnl
  split at hs
  · cases hs
  · rename_i v hv
    split at hs
    · cases hs
    · rename_i p hp
      have heq : strtoull16 p = prev := by simpa using hs
      simp only [query_loop, if_neg hnl, hv, hp, heq, ne_eq, not_true_eq_false, if_false, lineMatches, lineLink]
      split_ifs <;> rfl

theorem query_loop_spec : query_loop ast chunks prev =
      (((walk seeRecord lineLink prev chunks).accepted.map cstr).filter (lineMatches ast),
        (walk seeRecord lineLink prev chunks).exit = .eof ||
          (walk seeRecord lineLink prev chunks).exit = .stopped) := by
  induction chunks generalizing prev with
  | nil => rfl
  | cons c rest ih =>
    cases hs : seeRecord c with
    | stop => simp [query_loop_stop hs, walk_cons_stop hs]
    | missing => simp [query_loop_broken (.inl hs), walk_cons_missing hs]
    | link v =>
      by_cases hv : v = prev
      · subst hv
        rw [query_loop_carries hs, ih, walk_cons_carries hs]
        simp only [map_cons, filter_cons]
        split_ifs <;> rfl
      · simp [query_loop_broken (.inr ⟨v, hs, hv⟩), walk_cons_mismatch hs hv]

end

theorem map_cstr_chainBegin (f : Evidence) : (chainBegin f).map cstr = chainBegin f := by
  refine map_congr_left (g := id) (fun l hl => ?_) |>.trans (map_id _)
  obtain ⟨hlinked, -⟩ := walk_accepted seeRecord lineLink f.2 (journal_chunks (f.1.getD []))
  obtain ⟨h, hc⟩ := hlinked.ok_of_mem hl
  have hmem : l ∈ journal_chunks (f.1.getD []) := by
    rcases walk_split seeRecord lineLink f.2 (journal_chunks (f.1.getD [])) with ⟨-, heq⟩ | ⟨_, _, heq, -⟩
    · rw [heq]
      exact hl
    · rw [heq]
      exact mem_append_left _ hl
  have hsee : seeRecord l = .link h := hc
  exact (isLine_of_readable hmem (by simp [hsee])).2

theorem passes_iff : passes f = true ↔ Internally f := by
  obtain ⟨file, h⟩ := f
  cases file with
  | none => simp [passes, Internally]
  | some content =>
    have hwalk := @walk_exit_iff _ _ _ seeRecord lineLink h (journal_chunks content)
    simpa [passes, Internally, readableLines] using hwalk

theorem journal_query_file_spec (h : UInt64) : journal_query_file fs path ast h =
      ⟨if passes (fs path, h) then ((chainBegin (fs path, h)).filter (lineMatches ast)).length else -1,
        (chainBegin (fs path, h)).filter (lineMatches ast)⟩ := by
  cases hf : fs path with
  | none => simp [journal_query_file, hf, passes, chainBegin, journal_chunks, fgetsAll, fgetsFrom]
  | some content =>
    have hmap := map_cstr_chainBegin (some content, h)
    simp only [chainBegin, Option.getD_some] at hmap
    simp only [journal_query_file, hf, query_loop_spec, passes, chainBegin, Option.getD_some, hmap,
      Option.isSome_some, Bool.true_and]

def queryFiles (ast : Option Filter) (files : List Evidence) : QueryResult :=
  ⟨if files.all passes then ((frontLines files).filter (lineMatches ast)).length else -1,
    (frontLines files).filter (lineMatches ast)⟩

theorem query_segments_spec :
    query_segments fs base ast seqs = queryFiles ast (seqs.map fun seq =>
      (fs (segment_file base seq), segment_genesis_prev fs (segment_file base seq))) := by
  induction seqs with
  | nil => rfl
  | cons seq seqs ih =>
    rw [query_segments, ih, journal_query_file_spec]
    simp only [queryFiles, map_cons, all_cons, frontLines]
    generalize (fs (segment_file base seq), segment_genesis_prev fs (segment_file base seq)) = f
    generalize seqs.map (fun seq =>
      (fs (segment_file base seq), segment_genesis_prev fs (segment_file base seq))) = files
    cases hf : passes f with
    | false => simp
    | true =>
      have hlen : ∀ n : Nat, ¬ ((n : Int) < 0) := fun n => by omega
      by_cases hall : files.all passes = true
      · simp [hlen, hall, filter_append]
      · simp [hlen, hall, filter_append]

theorem retraced_journal_query_spec (fs : FS) (base : Bytes) (ast : Option Filter) :
    retraced_journal_query fs base ast = queryFiles ast (queried fs base) := by
  unfold retraced_journal_query queried
  split
  · exact query_segments_spec ..
  · split_ifs with h
    · rw [journal_query_file_spec]
      simp [queryFiles, frontLines]
    · rfl

/-- Files that hold by themselves are one verified chain from `h` exactly when each starts from the head
of those in front of it, and nothing complete stands behind what can be read. -/
theorem linked_files_iff (hint : ∀ f ∈ files, Internally f) (h : UInt64) :
    Linked VerifiedLine lineLink h (files.flatMap fun f => completeLines (f.1.getD [])) ↔
      (∀ f ∈ files, newline ∉ unreadBytes (f.1.getD [])) ∧ Contiguous h files := by
  induction files generalizing h with
  | nil => simp [Contiguous]
  | cons f files ih =>
    obtain ⟨content, hf, hl⟩ := hint f mem_cons_self
    have ih := fun h => ih (fun g hg => hint g (mem_cons_of_mem f hg)) h
    rw [flatMap_cons, linked_append, Contiguous, hf, Option.getD_some, forall_mem_cons, hf, Option.getD_some]
    constructor
    · rintro ⟨hone, hrest⟩
      have hlines := hone
      rw [completeLines_eq, linked_append] at hone
      have hno := not_verified_unread hone.2
      rw [completeLines_of_no_unread hno, ih] at hrest
      refine ⟨⟨hno, hrest.1⟩, fun hne => ?_, hrest.2⟩
      -- The first line carries both links.
      obtain ⟨l, ls, heq⟩ := exists_cons_of_ne_nil hne
      rw [heq] at hl hone
      have h1 : seeRecord l = .link f.2 := hl.1
      have h2 : seeRecord l = .link h := hone.1.1.2
      rw [h1] at h2
      simpa using h2
    · rintro ⟨⟨hno, hrest⟩, hgen, hcont⟩
      have hcarries : Linked (Carries seeRecord) lineLink h (readableLines content) := by
        by_cases hne : readableLines content = []
        · rw [hne]
          trivial
        · rw [← hgen hne]
          exact hl
      refine ⟨(linked_completeLines_iff hcarries).mpr hno, ?_⟩
      rw [completeLines_of_no_unread hno, ih]
      exact ⟨hrest, hcont⟩

/-- **Broken evidence.** A query refuses broken evidence without emitting any of it exactly when the
files that hold by themselves also join up, and no record in front of a break matches the filter. -/
theorem refuses_iff (fs : FS) (base : Bytes) (ast : Option Filter) :
    Refuses fs base ast ↔ Joined fs base ast := by
  have hall : (queried fs base).all passes = true ↔ ∀ f ∈ queried fs base, Internally f := by
    simp only [all_eq_true, passes_iff]
  have hsunk : (retraced_journal_query fs base ast).sunk = [] ↔
      ∀ l ∈ frontLines (queried fs base), lineMatches ast l = false := by
    simp [retraced_journal_query_spec, queryFiles, filter_eq_nil_iff]
  by_cases hint : ∀ f ∈ queried fs base, Internally f
  · have hret : 0 ≤ (retraced_journal_query fs base ast).ret := by
      rw [retraced_journal_query_spec, queryFiles, if_pos (hall.mpr hint)]
      exact Int.natCast_nonneg _
    have hchain := linked_files_iff hint
    constructor
    · intro hr
      obtain ⟨h, hl⟩ := hr.verified hret
      obtain ⟨hno, hcont⟩ := (hchain h).mp hl
      exact ⟨fun _ => ⟨hno, h, hcont⟩, fun hnot => absurd hint hnot⟩
    · intro hj
      obtain ⟨hno, h, hcont⟩ := hj.joined hint
      exact ⟨fun _ => ⟨h, (hchain h).mpr ⟨hno, hcont⟩⟩, fun hneg => by omega⟩
  · have hret : (retraced_journal_query fs base ast).ret = -1 := by
      rw [retraced_journal_query_spec, queryFiles, if_neg (fun h => hint (hall.mp h))]
    constructor
    · intro hr
      exact ⟨fun h => absurd h hint, fun _ => hsunk.mp (hr.silent hret)⟩
    · intro hj
      exact ⟨fun hnn => by omega, fun _ => hsunk.mpr (hj.early hint)⟩

theorem segment_hi_eq (hlt : hi < n) (hex : segment_exists fs base hi = true)
    (hnone : ∀ m, hi < m → m < n → segment_exists fs base m = false) : segment_hi fs base n = some hi := by
  induction n with
  | zero => omega
  | succ n ih =>
    rw [segment_hi]
    rcases Nat.lt_succ_iff_lt_or_eq.mp hlt with h | rfl
    · rw [hnone n h (Nat.lt_succ_self n)]
      exact ih h fun m h1 h2 => hnone m h1 (by omega)
    · rw [if_pos hex]

def twoSegments (a b : Bytes) : FS :=
  Function.update (Function.update (fun _ => none) (segment_file (bytes "j") 0) (some a))
    (segment_file (bytes "j") 1) (some b)

theorem twoSegments_zero (a b : Bytes) : twoSegments a b (segment_file (bytes "j") 0) = some a := by
  have hne : segment_file (bytes "j") 0 ≠ segment_file (bytes "j") 1 := by decide
  simp [twoSegments, Function.update_of_ne hne]

theorem twoSegments_one (a b : Bytes) : twoSegments a b (segment_file (bytes "j") 1) = some b := by
  simp [twoSegments]

theorem twoSegments_range (a b : Bytes) :
    retraced_journal_segment_range (twoSegments a b) (bytes "j") = some (0, 1) := by
  have hhi : segment_hi (twoSegments a b) (bytes "j") 10000 = some 1 := by
    refine segment_hi_eq (by norm_num) (by simp [segment_exists, twoSegments_one]) ?_
    intro m hm hlt
    have hb : (bytes "j").length ≤ 511 := by decide
    have h0 : segment_file (bytes "j") m ≠ segment_file (bytes "j") 0 := fun h => by
      have := segment_file_inj hb hlt h
      omega
    have h1 : segment_file (bytes "j") m ≠ segment_file (bytes "j") 1 := fun h => by
      have := segment_file_inj hb hlt h
      omega
    simp [segment_exists, twoSegments, Function.update_of_ne h0, Function.update_of_ne h1]
  have hlo : retraced_journal_segment_lo (twoSegments a b) (bytes "j") 1 = some 0 := by
    refine segment_lo_eq_some.mpr ⟨?_, by norm_num, fun n hn => by omega⟩
    simp [segment_exists, twoSegments_zero]
  simp [retraced_journal_segment_range, hhi, hlo]

theorem segment_genesis_prev_congr (h : fs p = fs' p') :
    segment_genesis_prev fs p = segment_genesis_prev fs' p' := by
  simp only [segment_genesis_prev, h]

def declaredBy (a : Bytes) : UInt64 := segment_genesis_prev (fun _ => some a) []

theorem queried_of_range (h : retraced_journal_segment_range fs base = some (lo, hi)) :
    queried fs base = (range' lo (hi + 1 - lo)).map fun seq =>
      (fs (segment_file base seq), segment_genesis_prev fs (segment_file base seq)) := by
  rw [queried, h]

theorem twoSegments_queried :
    queried (twoSegments a b) (bytes "j") = [(some a, declaredBy a), (some b, declaredBy b)] := by
  have h0 := twoSegments_zero a b
  have h1 := twoSegments_one a b
  have hd0 : segment_genesis_prev (twoSegments a b) (segment_file (bytes "j") 0) = declaredBy a :=
    segment_genesis_prev_congr h0
  have hd1 : segment_genesis_prev (twoSegments a b) (segment_file (bytes "j") 1) = declaredBy b :=
    segment_genesis_prev_congr h1
  rw [queried_of_range (twoSegments_range a b)]
  simp [range'_succ, h0, h1, hd0, hd1]

theorem not_linked_unjoined (g : UInt64) : ¬ Linked VerifiedLine lineLink g
    [journal_line 0 (bytes "a") 0 0 none, journal_line 0 (bytes "a") 0 7 none] := by
  rintro ⟨⟨-, h0⟩, ⟨-, h7⟩, -⟩
  have hsee0 : seeRecord (journal_line 0 (bytes "a") 0 0 none) = .link 0 :=
    (recordLine_journal_line (by decide) (by simp [PayloadOk]) (by decide)).record
  have hsee7 : seeRecord (journal_line 0 (bytes "a") 0 7 none) = .link 7 :=
    (recordLine_journal_line (by decide) (by simp [PayloadOk]) (by decide)).record
  have hlink : lineLink (journal_line 0 (bytes "a") 0 0 none) 0 ≠ 7 := by decide_cbv
  rw [hsee0, Seen.link.injEq] at h0
  rw [hsee7, Seen.link.injEq, ← h0] at h7
  exact hlink h7.symm

theorem not_refuses_of_counted (hfiles : queried fs base = files) (hall : files.all passes = true)
    (hnot : ∀ h, ¬ Linked VerifiedLine lineLink h (files.flatMap fun f => completeLines (f.1.getD []))) :
    ¬ Refuses fs base ast := by
  intro h
  have hspec := retraced_journal_query_spec fs base ast
  rw [hfiles, queryFiles, if_pos hall] at hspec
  have hverified := h.verified
  rw [hspec, hfiles] at hverified
  obtain ⟨g, hl⟩ := hverified (Int.natCast_nonneg _)
  exact hnot g hl

theorem not_refuses_of_emitted (hfiles : queried fs base = files) (hall : files.all passes = false)
    (hsunk : (frontLines files).filter (lineMatches ast) ≠ []) : ¬ Refuses fs base ast := by
  intro h
  have hspec := retraced_journal_query_spec fs base ast
  rw [hfiles, queryFiles, hall] at hspec
  have hsilent := h.silent
  rw [hspec] at hsilent
  exact hsunk (hsilent rfl)

/-- Two segments that do not join up are counted; and where the second is broken, what matched in the
first was emitted already. -/
theorem not_refuses_twoSegments :
    ¬ Refuses (twoSegments (journal_line 0 (bytes "a") 0 0 none) (journal_line 0 (bytes "a") 0 7 none))
        (bytes "j") none ∧
      ¬ Refuses (twoSegments (journal_line 0 (bytes "a") 0 0 none) (bytes "0\n")) (bytes "j") none := by
  constructor
  · refine not_refuses_of_counted twoSegments_queried (by decide +kernel) ?_
    have hlines : completeLines (journal_line 0 (bytes "a") 0 0 none) ++
        (completeLines (journal_line 0 (bytes "a") 0 7 none) ++ []) =
        [journal_line 0 (bytes "a") 0 0 none, journal_line 0 (bytes "a") 0 7 none] := by
      decide
    rw [flatMap_cons, flatMap_cons, flatMap_nil, Option.getD_some, Option.getD_some, hlines]
    exact not_linked_unjoined
  · exact not_refuses_of_emitted twoSegments_queried (by decide +kernel) (by decide +kernel)

end Retrace.Ctl
