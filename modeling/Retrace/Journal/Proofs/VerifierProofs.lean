import Retrace.Journal.Proofs.EvidenceProofs
import Retrace.Journal.Proofs.RecordProofs

/-!
# The verifiers of one file

The tail and the offline check are chain walks like the replay. The tail and the replay share the view
`seeRecord`; the offline check has the view `seeText`, which never stops. The verifiers agree on a file
exactly when the two views agree on every line that a chain leads to.
-/

namespace Retrace.Retraced

open CLib Parson HashChain Option List

variable {l : Bytes}

def TailState.accept (last_n : Nat) (s : TailState) (chunk : Bytes) : TailState :=
  { s with
    lineno := s.lineno + 1
    ring := s.ring.set s.ring_i (some (cstr chunk))
    ring_i := (s.ring_i + 1) % last_n
    kept := if s.kept < last_n then s.kept + 1 else s.kept
    prev := lineLink chunk s.prev }

theorem tail_loop_cons :
    tail_loop last_n (c :: rest) s =
      match seeRecord c with
      | .stop => some { s with lineno := s.lineno + 1 }
      | .missing => none
      | .link v =>
        if v = s.prev then tail_loop last_n rest (s.accept last_n c)
        else some { s with lineno := s.lineno + 1, chain_out := (s.lineno + 1 : Nat) } := by
  by_cases hnl : (cstr c).getLast? = some newline
  · cases hv : json_parse_string (cstr c) with
    | none => simp [tail_loop, seeRecord, hnl, hv]
    | some v =>
      cases hp : json_object_get_string (json_value_get_object v) (bytes "prev") <;>
        simp [tail_loop, seeRecord, hnl, hv, hp, TailState.accept, lineLink, ite_not]
  · simp [tail_loop, seeRecord, hnl]

theorem tail_loop_spec (last_n : Nat) (chunks : List Bytes) (s : TailState)
    (hW : walk seeRecord lineLink s.prev chunks = W) : (W.exit = .missing → tail_loop last_n chunks s = none) ∧
    (W.exit ≠ .missing → ∃ s', tail_loop last_n chunks s = some s' ∧
      s'.chain_out = if W.exit = .mismatch then ((s.lineno + W.accepted.length + 1 : Nat) : Int)
        else s.chain_out) := by
  induction chunks generalizing s W with
  | nil =>
    subst hW
    simp [tail_loop]
  | cons c rest ih =>
    cases hc : seeRecord c with
    | stop =>
      rw [walk_cons_stop hc] at hW
      subst hW
      simp [tail_loop_cons, hc]
    | missing =>
      rw [walk_cons_missing hc] at hW
      subst hW
      simp [tail_loop_cons, hc]
    | link v =>
      by_cases hv : v = s.prev
      · subst hv
        obtain ⟨hnone, hsome⟩ := ih (s.accept last_n c) rfl
        rw [walk_cons_carries hc] at hW
        subst hW
        simp only [tail_loop_cons, hc, if_true]
        refine ⟨hnone, fun hne => ?_⟩
        obtain ⟨s', hs', hout⟩ := hsome hne
        refine ⟨s', hs', hout.trans ?_⟩
        simp only [TailState.accept, length_cons]
        congr 2
        omega
      · rw [walk_cons_mismatch hc hv] at hW
        subst hW
        simp [tail_loop_cons, hc, hv]

theorem chain_loop_spec (chunks : List Bytes) (prev : UInt64) (lines : Nat) :
    chain_loop 0 chunks prev lines =
      let W := walk seeText lineLink prev chunks
      if W.exit = .eof then ⟨0, W.head, lines + W.accepted.length, 0⟩
      else ⟨-1, W.head, lines + W.accepted.length + 1, lines + W.accepted.length + 1⟩ := by
  induction chunks generalizing prev lines with
  | nil => simp [chain_loop]
  | cons c rest ih =>
    cases hc : text_prev (cstr c) with
    | none =>
      have hsee : seeText c = .missing := by simp [seeText, hc]
      simp [chain_loop, hc, walk_cons_missing hsee]
    | some v =>
      have hsee : seeText c = .link v := by simp [seeText, hc]
      by_cases hv : v = prev
      · subst hv
        have ih := ih (lineLink c v) (lines + 1)
        rw [walk_cons_carries hsee]
        simp only [chain_loop, hc, ne_eq, not_true_eq_false, false_and, if_false, if_true]
        rw [show retraced_journal_line_hash (cstr c) v = lineLink c v from rfl, ih]
        simp only [length_cons]
        split_ifs <;> simp <;> omega
      · simp [chain_loop, hc, hv, walk_cons_mismatch hsee hv]

theorem seeText_ne_stop : seeText c ≠ .stop := by
  unfold seeText
  split <;> simp

theorem toInt32_eq_iff (n : Nat) : toInt32 n = n ↔ n < 2 ^ 31 := by
  have h : toInt32 n = (n : Int).bmod (2 ^ 32) := Int32.toInt_ofNat'
  rw [h, Int.bmod_def]
  norm_num
  omega

section

variable {fs : FS} {j : Journal}

theorem tail_spec (last_n : Nat) (hW : walk seeRecord lineLink 0 (journal_chunks ((fs j.path).getD [])) = W) :
    (W.exit = .missing → retraced_journal_tail fs j last_n = none) ∧
    (W.exit ≠ .missing → ∃ tail, retraced_journal_tail fs j last_n = some tail ∧
      tail.chain_out = if W.exit = .mismatch then ((W.accepted.length + 1 : Nat) : Int) else 0) := by
  cases hc : fs j.path with
  | none =>
    rw [hc] at hW
    subst hW
    simp [retraced_journal_tail, hc, journal_chunks, fgetsAll, fgetsFrom]
  | some content =>
    rw [hc] at hW
    simp only [retraced_journal_tail, hc]
    generalize (if last_n = 0 then 1 else last_n) = n
    obtain ⟨hnone, hsome⟩ := tail_loop_spec n (journal_chunks content)
      { ring := replicate n none } hW
    refine ⟨fun h => by rw [hnone h]; rfl, fun h => ?_⟩
    obtain ⟨s', hs', hout⟩ := hsome h
    rw [hs']
    refine ⟨_, rfl, ?_⟩
    simpa using hout

theorem chain_file_broken_at (hW : walk seeText lineLink 0 (journal_chunks ((fs path).getD [])) = W) :
    (retraced_journal_chain_file fs path 0).broken_at = if W.exit = .eof then 0 else W.accepted.length + 1 := by
  subst hW
  cases hc : fs path with
  | none =>
    simp [retraced_journal_chain_file, retraced_journal_chain_file_from, hc, journal_chunks, fgetsAll, fgetsFrom]
  | some content =>
    simp only [retraced_journal_chain_file, retraced_journal_chain_file_from, hc, chain_loop_spec, getD_some]
    split_ifs <;> simp

theorem replay_chain_broken_at (hrot : j.rotates = false) (r : Registry)
    (hW : walk seeRecord lineLink 0 (journal_chunks ((fs j.path).getD [])) = W) :
    (retraced_journal_replay fs j r).2.1.chain_broken_at =
      if replayExit W.exit = .broken then toInt32 (W.accepted.length + 1) else -1 := by
  subst hW
  set j0 : Journal := { j with
    replay_ok := 0
    replay_events := 0
    chain_broken_at := -1
    clean_close := false } with hj0
  have hrot0 : j0.rotates = false := hrot
  rw [retraced_journal_replay, ← hj0]
  cases hc : fs j.path with
  | none =>
    simp [hrot0, journal_chunks, fgetsAll, fgetsFrom, replayExit, show j0.chain_broken_at = -1 from rfl]
  | some content =>
    simp only [hrot0, show j0.path = j.path from rfl, isNone_some, Bool.false_eq_true, if_false,
      replay_result_chain_broken_at, getD_some]
    by_cases hex : replayExit (walk seeRecord lineLink 0 (journal_chunks content)).exit = .broken
    · obtain ⟨r', hr'⟩ := journal_replay_file_broken hc j0 r 0 true hex
      rw [hr', if_pos hex]
      simp [Journal.walked, hex]
    · rw [journal_replay_file_ok hc j0 r 0 true hex, if_neg hex]
      simp [Journal.walked, hex, hj0]

theorem verifiersAgree_iff_walks (hrot : j.rotates = false)
    (hR : walk seeRecord lineLink 0 (journal_chunks ((fs j.path).getD [])) = R)
    (hT : walk seeText lineLink 0 (journal_chunks ((fs j.path).getD [])) = T) : VerifiersAgree fs j last_n ↔
      R.exit ≠ .missing ∧ (R.exit = .mismatch ↔ T.exit ≠ .eof) ∧
        (R.exit = .mismatch → R.accepted.length = T.accepted.length ∧ R.accepted.length + 1 < 2 ^ 31) := by
  obtain ⟨hnone, hsome⟩ := tail_spec last_n hR
  have hint := toInt32_eq_iff (R.accepted.length + 1)
  rw [VerifiersAgree, chain_file_broken_at hT, replay_chain_broken_at hrot {} hR]
  by_cases hmiss : R.exit = .missing
  · simp [hnone hmiss, hmiss]
  · obtain ⟨tail, htail, hout⟩ := hsome hmiss
    have heq : ∀ t : TailResult, some tail = some t ↔ tail = t := fun t => some_inj
    simp only [htail, heq, exists_eq_left', hout, ne_eq, hmiss, not_false_eq_true, true_and]
    by_cases hmis : R.exit = .mismatch
    · by_cases heof : T.exit = .eof
      · simp [hmis, heof]
        omega
      · have hbroken : replayExit .mismatch = .broken := rfl
        simp only [hmis, heof, if_true, if_false, not_false_eq_true, true_and, forall_true_left]
        rw [if_pos hbroken, if_neg (Nat.succ_ne_zero _)]
        constructor
        · rintro ⟨hline, hreplay⟩
          exact ⟨by omega, hint.mp (hreplay.trans hline.symm)⟩
        · rintro ⟨hlen, hlt⟩
          rw [← hlen]
          exact ⟨rfl, hint.mpr hlt⟩
    · have hok : replayExit R.exit ≠ .broken := by
        cases hR' : R.exit <;> simp_all [replayExit]
      by_cases heof : T.exit = .eof
      · simp [hmis, heof, hok]
      · simp [hmis, heof, hok]
        omega

theorem linked_seeText_of_alike (hl : Linked (Carries seeRecord) lineLink h ls)
    (halike : ∀ pre l rest, ls = pre ++ l :: rest → ∀ v, seeRecord l = .link v →
      (v = headOf lineLink h pre → seeText l = .link (headOf lineLink h pre))) :
    Linked (Carries seeText) lineLink h ls := by
  induction ls generalizing h with
  | nil => trivial
  | cons l ls ih =>
    refine ⟨halike [] l ls rfl h hl.1 rfl, ih hl.2 fun pre l' rest hls v hv => ?_⟩
    exact halike (l :: pre) l' rest (by rw [hls]; rfl) v hv

theorem walk_append_mismatch (hl : Linked (Carries see) lineLink h ls) (hs : see l = .link v)
    (hv : v ≠ headOf lineLink h ls) :
    walk see lineLink h (ls ++ l :: rest) = ⟨ls, headOf lineLink h ls, .mismatch⟩ := by
  rw [walk_append hl, walk_cons_mismatch hs hv]
  simp

theorem walks_agree_of_alike
    (hall : ∀ pre l rest, chunks = pre ++ l :: rest → Linked (Carries seeRecord) lineLink 0 pre →
      LooksAlike pre l rest) (hR : walk seeRecord lineLink 0 chunks = R)
        (hT : walk seeText lineLink 0 chunks = T) :
    R.exit ≠ .missing ∧ (R.exit = .mismatch ↔ T.exit ≠ .eof) ∧
      (R.exit = .mismatch → R.accepted.length = T.accepted.length ∧ R.accepted.length + 1 < 2 ^ 31) := by
  obtain ⟨hacc, hhead⟩ := walk_accepted seeRecord lineLink 0 chunks
  have hsplit := walk_split seeRecord lineLink 0 chunks
  rw [hR] at hacc hhead hsplit
  -- What the replay accepts the text search accepts too.
  have htext : Linked (Carries seeText) lineLink 0 R.accepted := by
    obtain ⟨tail, hchunks⟩ : ∃ tail, chunks = R.accepted ++ tail := by
      rcases hsplit with ⟨-, h⟩ | ⟨l, rest, h, -⟩
      · exact ⟨[], by rw [append_nil]; exact h⟩
      · exact ⟨_, h⟩
    refine linked_seeText_of_alike hacc fun pre l rest heq v hv => ?_
    rw [heq, linked_append] at hacc
    have := hall pre l (rest ++ tail) (by rw [hchunks, heq]; simp) hacc.1
    exact (this.alike v hv).mp
  rcases hsplit with ⟨he, hchunks⟩ | ⟨l, rest, hchunks, ⟨he, hs⟩ | ⟨-, hs⟩ | ⟨he, v, hs, hv⟩⟩
  · rw [← hchunks] at htext
    rw [walk_linked htext] at hT
    simp [he, ← hT]
  · have h := (hall R.accepted l rest hchunks hacc).stopped hs
    have hwhole : Linked (Carries seeText) lineLink 0 chunks := by
      rw [hchunks, linked_append]
      exact ⟨htext, h⟩
    rw [walk_linked hwhole] at hT
    simp [he, ← hT]
  · exact absurd hs (hall R.accepted l rest hchunks hacc).present
  · have h := hall R.accepted l rest hchunks hacc
    rw [hhead] at hv
    have hne : seeText l ≠ .link (headOf lineLink 0 R.accepted) := fun hcon =>
      hv ((h.alike v hs).mpr hcon)
    rw [hchunks, walk_append htext] at hT
    have hcount : R.accepted.length + 1 < 2147483648 := h.counted v hs hv
    cases hst : seeText l with
    | stop => exact absurd hst seeText_ne_stop
    | missing => simp [he, ← hT, walk_cons_missing hst, hcount]
    | link u =>
      have hu : u ≠ headOf lineLink 0 R.accepted := fun hu => hne (by rw [hst, hu])
      simp [he, ← hT, walk_cons_mismatch hst hu, hcount]

theorem alike_of_walks_agree (hR : walk seeRecord lineLink 0 chunks = R) (hT : walk seeText lineLink 0 chunks = T)
    (hmiss : R.exit ≠ .missing) (hiff : R.exit = .mismatch ↔ T.exit ≠ .eof)
    (hlen : R.exit = .mismatch → R.accepted.length = T.accepted.length ∧
      R.accepted.length + 1 < 2 ^ 31) (hchunks : chunks = pre ++ l :: rest)
    (hpre : Linked (Carries seeRecord) lineLink 0 pre) : LooksAlike pre l rest := by
  obtain ⟨hacc, -⟩ := walk_accepted seeText lineLink 0 chunks
  have hsplit := walk_split seeText lineLink 0 chunks
  rw [hT] at hacc hsplit
  obtain ⟨tail, hsplit, htail⟩ : ∃ tail, chunks = T.accepted ++ tail ∧ (T.exit = .eof → tail = []) := by
    rcases hsplit with ⟨-, h⟩ | ⟨l, rest, h, hcase⟩
    · exact ⟨[], by rw [append_nil]; exact h, fun _ => rfl⟩
    · refine ⟨_, h, fun he => ?_⟩
      rcases hcase with ⟨h, -⟩ | ⟨h, -⟩ | ⟨h, -⟩ <;> rw [he] at h <;> cases h
  -- A chain for the replay is one for the text search.
  have htext : ∀ ls more, chunks = ls ++ more → Linked (Carries seeRecord) lineLink 0 ls →
      Linked (Carries seeText) lineLink 0 ls := by
    intro ls more heq hls
    have hle : ls.length ≤ T.accepted.length := by
      by_cases he : T.exit = .eof
      · have h := congrArg length (hsplit.symm.trans heq)
        simp [htail he] at h
        omega
      · rw [heq, walk_append hls] at hR
        have := (hlen (hiff.mpr he)).1
        rw [← this, ← hR]
        simp
    obtain ⟨more', hmore⟩ := prefix_of_prefix_length_le ⟨more, heq.symm⟩ ⟨tail, hsplit.symm⟩ hle
    rw [← hmore, linked_append] at hacc
    exact hacc.1
  have hsnoc : ∀ {see : Bytes → Seen UInt64}, Linked (Carries see) lineLink 0 pre →
      see l = .link (headOf lineLink 0 pre) → Linked (Carries see) lineLink 0 (pre ++ [l]) :=
    fun hp hs => (linked_append _ _ _).mpr ⟨hp, hs, trivial⟩
  have hchunks' : chunks = (pre ++ [l]) ++ rest := by simp [hchunks]
  constructor
  · intro hs
    rw [hchunks, walk_append hpre, walk_cons_missing hs] at hR
    exact hmiss (by rw [← hR])
  · intro v hs
    refine ⟨fun hv => ?_, fun hst => ?_⟩
    · have h := htext (pre ++ [l]) rest hchunks' (hsnoc hpre (hv ▸ hs))
      rw [linked_append] at h
      exact h.2.1
    · by_contra hv
      rw [hchunks, walk_append_mismatch hpre hs hv] at hR
      have h1 := (hlen (by rw [← hR])).1
      rw [hchunks', walk_append (hsnoc (htext pre (l :: rest) hchunks hpre) hst)] at hT
      rw [← hR, ← hT] at h1
      simp at h1
  · intro v hs hv
    rw [hchunks, walk_append_mismatch hpre hs hv] at hR
    have := (hlen (by rw [← hR])).2
    rwa [← hR] at this
  · intro hs
    rw [hchunks, walk_append hpre, walk_cons_stop hs] at hR
    have he : T.exit = .eof := by
      by_contra hcon
      have := hiff.mpr hcon
      rw [← hR] at this
      cases this
    rw [htail he, append_nil] at hsplit
    rw [← hsplit, hchunks, linked_append] at hacc
    exact hacc.2

/-- **The verifiers agree** on a journal in one file exactly when every line that a chain leads to looks
the same to all of them. -/
theorem verifiersAgree_iff (hrot : j.rotates = false) (last_n : Nat) :
    VerifiersAgree fs j last_n ↔
      ∀ pre l rest, journal_chunks ((fs j.path).getD []) = pre ++ l :: rest →
        Linked (Carries seeRecord) lineLink 0 pre → LooksAlike pre l rest := by
  rw [verifiersAgree_iff_walks hrot rfl rfl]
  constructor
  · rintro ⟨hmiss, hiff, hlen⟩ pre l rest hchunks hpre
    exact alike_of_walks_agree rfl rfl hmiss hiff hlen hchunks hpre
  · exact fun hall => walks_agree_of_alike hall rfl rfl

end

/-- The verifiers agree on a journal with one record. -/
theorem verifiersAgree_one_record :
    VerifiersAgree (fileOnly (journal_line 0 (bytes "a") 0 0 none)) (retraced_journal_open (bytes "j"))
      10 := by
  have hline : RecordLine 0 (journal_line 0 (bytes "a") 0 0 none) :=
    recordLine_journal_line (by decide) (by simp [PayloadOk]) (by decide)
  refine (verifiersAgree_iff rfl 10).mpr fun pre l rest hchunks _ => ?_
  have hone : journal_chunks (((fileOnly (journal_line 0 (bytes "a") 0 0 none))
      (retraced_journal_open (bytes "j")).path).getD []) = [journal_line 0 (bytes "a") 0 0 none] := by
    have hfile : fileOnly (journal_line 0 (bytes "a") 0 0 none) (retraced_journal_open (bytes "j")).path =
      some (journal_line 0 (bytes "a") 0 0 none) := Function.update_self ..
    rw [hfile, getD_some, journal_chunks]
    simpa [fgetsAll, fgetsFrom] using fgetsAll_line hline.isLine []
  rw [hone] at hchunks
  obtain ⟨rfl, rfl, rfl⟩ : pre = [] ∧ l = journal_line 0 (bytes "a") 0 0 none ∧ rest = [] := by
    cases pre with
    | nil => simpa [eq_comm] using hchunks
    | cons a pre => simp at hchunks
  refine ⟨?_, ?_, ?_, ?_⟩
  · simp [hline.record]
  · intro v hv
    obtain rfl : 0 = v := by simpa [hline.record] using hv
    exact ⟨fun _ => hline.text, fun _ => rfl⟩
  · intro v hv hne
    rw [hline.record, Seen.link.injEq] at hv
    exact absurd hv.symm hne
  · simp [hline.record]

/-- On a line that is no object the tail reads a link that is not there; on a line that does not parse
only the offline check complains. -/
theorem not_verifiersAgree_garbled :
    ¬ VerifiersAgree (fileOnly (bytes "1\n")) (retraced_journal_open (bytes "j")) 10 ∧
      ¬ VerifiersAgree (fileOnly (bytes "x\n")) (retraced_journal_open (bytes "j")) 10 := by
  constructor
  · rintro ⟨tail, htail, -⟩
    have hnone : (retraced_journal_tail (fileOnly (bytes "1\n")) (retraced_journal_open (bytes "j"))
      10).isNone = true := by decide +kernel
    rw [htail] at hnone
    cases hnone
  · rintro ⟨tail, -, -, hreplay⟩
    exact absurd hreplay (by decide +kernel)

end Retrace.Retraced
