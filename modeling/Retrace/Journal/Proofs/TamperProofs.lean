import Retrace.Journal.Reader
import Retrace.CLib.Proofs.StdioProofs
import Retrace.CLib.Proofs.BufferProofs

/-!
# Changed bytes

The links are multiply-xor hashes with an odd multiplier, so a link depends injectively on the link in
front of it and on every single byte of its line. A change of one byte that the check hashes is found at
that line, when it spoils the link the line carries, or at the next one, which carries the old link. The
check reads a line up to its first NUL only, and a byte behind it can be changed at will.
-/

namespace Retrace.Retraced

open CLib List

variable {x y : UInt64}

def fnv_inverse : UInt64 := 0x87b58b5d359c449b

theorem fnv_mul_injective (h : x * 0x01000193 = y * 0x01000193) : x = y := by
  have hinv : (0x01000193 : UInt64) * fnv_inverse = 1 := by decide
  calc x = x * 0x01000193 * fnv_inverse := by rw [UInt64.mul_assoc, hinv, UInt64.mul_one]
    _ = y * 0x01000193 * fnv_inverse := by rw [h]
    _ = y := by rw [UInt64.mul_assoc, hinv, UInt64.mul_one]

theorem xor_cancel_right {c : UInt64} (h : x ^^^ c = y ^^^ c) : x = y := by
  have := congrArg (· ^^^ c) h
  simpa [UInt64.xor_assoc] using this

theorem xor_cancel_left {c : UInt64} (h : c ^^^ x = c ^^^ y) : x = y := by
  rw [UInt64.xor_comm c x, UInt64.xor_comm c y] at h
  exact xor_cancel_right h

theorem fnv1a_append (h : UInt64) : fnv1a (s ++ t) h = fnv1a t (fnv1a s h) :=
  foldl_append

theorem fnv1a_cons (h : UInt64) : fnv1a (c :: s) h = fnv1a s ((h ^^^ c.toUInt64) * 0x01000193) :=
  foldl_cons ..

theorem fnv1a_injective : Function.Injective (fnv1a s) := by
  induction s with
  | nil => exact fun _ _ h => h
  | cons c s ih =>
    intro x y h
    rw [fnv1a_cons, fnv1a_cons] at h
    exact xor_cancel_right (fnv_mul_injective (ih h))

theorem fnv1a_byte_ne {b b' : UInt8} (hb : b ≠ b') (h : UInt64) :
    fnv1a (u ++ b :: v) h ≠ fnv1a (u ++ b' :: v) h := by
  intro heq
  rw [fnv1a_append, fnv1a_append, fnv1a_cons, fnv1a_cons] at heq
  have hx := xor_cancel_left (fnv_mul_injective (fnv1a_injective heq))
  exact hb (by simpa using congrArg UInt64.toUInt8 hx)

theorem line_hash_byte_ne (hb : b ≠ b') (u v : Bytes) (prev : UInt64) :
    retraced_journal_line_hash (u ++ b :: v) prev ≠ retraced_journal_line_hash (u ++ b' :: v) prev :=
  fnv1a_byte_ne hb _

section

variable {stop_at lines : Nat} {prev : UInt64}

theorem chain_loop_cons : chain_loop stop_at (c :: cs) prev lines =
      if stop_at ≠ 0 ∧ stop_at ≤ lines then ⟨0, prev, lines, 0⟩ else if text_prev (cstr c) = some prev then
        chain_loop stop_at cs (retraced_journal_line_hash (cstr c) prev) (lines + 1)
      else ⟨-1, prev, lines + 1, lines + 1⟩ := by
  rw [chain_loop]

theorem chain_loop_lines_out_le (cs : List Bytes) :
    (chain_loop stop_at cs prev lines).lines_out ≤ lines + cs.length := by
  induction cs generalizing prev lines with
  | nil => simp [chain_loop]
  | cons c cs ih =>
    rw [chain_loop_cons]
    split_ifs with hstop hprev
    · simp
    · have := @ih (lines + 1) (retraced_journal_line_hash (cstr c) prev)
      simp only [length_cons]
      omega
    · simp only [length_cons]
      omega

theorem chain_loop_passed (hret : (chain_loop stop_at (c :: cs) prev lines).ret = 0)
    (hlines : lines < (chain_loop stop_at (c :: cs) prev lines).lines_out) :
    ¬ (stop_at ≠ 0 ∧ stop_at ≤ lines) ∧ text_prev (cstr c) = some prev := by
  rw [chain_loop_cons] at hret hlines
  split_ifs at hret hlines with hstop hprev
  · simp at hlines
  · exact ⟨hstop, hprev⟩
  · simp at hret

theorem chain_loop_skip (hret : (chain_loop stop_at (A ++ B) prev lines).ret = 0)
    (hlines : lines + A.length < (chain_loop stop_at (A ++ B) prev lines).lines_out) :
    ∃ prev', ∀ C, chain_loop stop_at (A ++ C) prev lines = chain_loop stop_at C prev' (lines + A.length) := by
  induction A generalizing prev lines with
  | nil => exact ⟨prev, fun C => rfl⟩
  | cons a A ih =>
    rw [cons_append] at hret hlines
    obtain ⟨hstop, hprev⟩ := chain_loop_passed hret (by simp only [length_cons] at hlines; omega)
    have hstep : ∀ C, chain_loop stop_at (a :: C) prev lines =
        chain_loop stop_at C (retraced_journal_line_hash (cstr a) prev) (lines + 1) := by
      intro C
      rw [chain_loop_cons, if_neg hstop, if_pos hprev]
    rw [hstep] at hret hlines
    obtain ⟨prev', h⟩ := ih hret (by simp only [length_cons] at hlines; omega)
    refine ⟨prev', fun C => ?_⟩
    rw [cons_append, hstep, h, length_cons]
    congr 1
    omega

theorem chain_loop_changed (hret : (chain_loop stop_at (c :: cs) prev lines).ret = 0)
    (hlines : lines + 1 < (chain_loop stop_at (c :: cs) prev lines).lines_out)
    (hne : retraced_journal_line_hash (cstr c) prev ≠ retraced_journal_line_hash (cstr c') prev) :
    (chain_loop stop_at (c' :: cs) prev lines).ret = -1 ∧
      ((chain_loop stop_at (c' :: cs) prev lines).broken_at = lines + 1 ∨
        (chain_loop stop_at (c' :: cs) prev lines).broken_at = lines + 2) := by
  obtain ⟨hstop, hprev⟩ := chain_loop_passed hret (by omega)
  have hstep : chain_loop stop_at (c :: cs) prev lines =
      chain_loop stop_at cs (retraced_journal_line_hash (cstr c) prev) (lines + 1) := by
    rw [chain_loop_cons, if_neg hstop, if_pos hprev]
  rw [hstep] at hret hlines
  rw [chain_loop_cons, if_neg hstop]
  by_cases hprev' : text_prev (cstr c') = some prev
  · rw [if_pos hprev']
    cases cs with
    | nil => simp [chain_loop] at hlines
    | cons d cs =>
      obtain ⟨hstop', hd⟩ := chain_loop_passed hret hlines
      have hd' : text_prev (cstr d) ≠ some (retraced_journal_line_hash (cstr c') prev) := by
        rw [hd]
        exact fun h => hne (Option.some.inj h)
      rw [chain_loop_cons, if_neg hstop']
      simp [hd']
  · simp [hprev']

end

theorem lines_around (hb : b ≠ newline) (hv : newline ∉ v) : completeLines (pre ++ b :: (v ++ newline :: rest)) =
        completeLines pre ++ (tornTail pre ++ b :: (v ++ [newline])) :: completeLines rest ∧
      tornTail (pre ++ b :: (v ++ newline :: rest)) = tornTail rest := by
  have hbody : newline ∉ b :: v := by simp [hv, Ne.symm hb]
  obtain ⟨hlines, htorn⟩ := linesFrom_append [] pre (b :: v ++ newline :: rest)
  refine ⟨hlines.trans ?_, htorn.trans (tornFrom_line hbody rest)⟩
  rw [linesFrom_line hbody rest]
  simp [completeLines, tornTail]

theorem lines_torn (hb : b ≠ newline) (hpost : newline ∉ post) :
    completeLines (pre ++ b :: post) = completeLines pre ∧
      tornTail (pre ++ b :: post) = tornTail pre ++ b :: post := by
  have hbody : newline ∉ b :: post := by simp [hpost, Ne.symm hb]
  obtain ⟨hlines, htorn⟩ := linesFrom_append [] pre (b :: post)
  obtain ⟨hnil, hcur⟩ := @linesFrom_of_not_mem (b :: post) (tornTail pre) hbody
  refine ⟨hlines.trans ?_, htorn.trans hcur⟩
  rw [show tornFrom [] pre = tornTail pre from rfl, hnil, append_nil]
  rfl

def FitLines (content : Bytes) : Prop :=
  ∀ l ∈ completeLines content ++ [tornTail content], l.length < 2048

instance (content : Bytes) : Decidable (FitLines content) :=
  inferInstanceAs (Decidable (∀ l ∈ completeLines content ++ [tornTail content], l.length < 2048))

theorem journal_chunks_eq (hfit : FitLines content) : journal_chunks content =
      completeLines content ++ if tornTail content = [] then [] else [tornTail content] :=
  fgetsFrom_eq_lines hfit

theorem FitLines.subst (hb : b ≠ newline) (hb' : b' ≠ newline) (hv : newline ∉ v)
    (hfit : FitLines (pre ++ b :: (v ++ newline :: rest))) : FitLines (pre ++ b' :: (v ++ newline :: rest)) := by
  unfold FitLines at hfit ⊢
  rw [(lines_around hb hv).1, (lines_around hb hv).2] at hfit
  rw [(lines_around hb' hv).1, (lines_around hb' hv).2]
  simp only [append_assoc, cons_append, mem_append, mem_cons] at hfit ⊢
  rintro l (hl | rfl | hl)
  · exact hfit l (.inl hl)
  · simpa using hfit _ (.inr (.inl rfl))
  · exact hfit l (.inr (.inr hl))

theorem journal_chunks_around (hb : b ≠ newline) (hv : newline ∉ v)
    (hfit : FitLines (pre ++ b :: (v ++ newline :: rest))) : journal_chunks (pre ++ b :: (v ++ newline :: rest)) =
      completeLines pre ++ (tornTail pre ++ b :: (v ++ [newline])) ::
        (completeLines rest ++ if tornTail rest = [] then [] else [tornTail rest]) := by
  rw [journal_chunks_eq hfit, (lines_around hb hv).1, (lines_around hb hv).2]
  simp

theorem cstr_append_of_mem (hu : 0 ∈ u) : cstr (u ++ t) = cstr u := by
  obtain ⟨x, y, rfl, hx⟩ := eq_append_cons_of_mem hu
  rw [append_assoc, cstr_append hx, cstr_append hx, cons_append, cstr_zero_cons, cstr_zero_cons]

theorem chain_loop_cstr_congr {stop_at lines : Nat} {prev : UInt64} (h : cstr c = cstr c') :
    chain_loop stop_at (c :: cs) prev lines = chain_loop stop_at (c' :: cs) prev lines := by
  rw [chain_loop_cons, chain_loop_cons, h]

/-- One byte of a line that is not the last one is replaced: the check finds it, at that line or at the
next one, exactly when no NUL stands in front of it in its line. -/
theorem byte_change_found_iff (fs fs' : FS) (path : Path) (start_prev : UInt64) (stop_at n : Nat)
    (pre post : Bytes) (b b' : UInt8)
    (hfs : fs path = some (pre ++ b :: post)) (hfs' : fs' path = some (pre ++ b' :: post))
    (hfit : FitLines (pre ++ b :: post))
    (hret : (retraced_journal_chain_file_from fs path start_prev stop_at).ret = 0)
    (hn : (retraced_journal_chain_file_from fs path start_prev stop_at).lines_out = n)
    (hne : b ≠ b') (hb : b ≠ newline ∧ b ≠ 0) (hb' : b' ≠ newline ∧ b' ≠ 0)
    (hk : (completeLines pre).length + 1 < n) :
    ((retraced_journal_chain_file_from fs' path start_prev stop_at).ret = -1 ∧
      ((retraced_journal_chain_file_from fs' path start_prev stop_at).broken_at =
          (completeLines pre).length + 1 ∨
        (retraced_journal_chain_file_from fs' path start_prev stop_at).broken_at =
          (completeLines pre).length + 2)) ↔
      0 ∉ tornTail pre := by
  simp only [retraced_journal_chain_file_from, hfs, hfs'] at hret hn ⊢
  subst hn
  by_cases hpost : newline ∈ post
  · obtain ⟨v, rest, rfl, hv⟩ := exists_first_line hpost
    rw [journal_chunks_around hb'.1 hv (hfit.subst hb.1 hb'.1 hv)]
    rw [journal_chunks_around hb.1 hv hfit] at hret hk
    generalize completeLines rest ++ (if tornTail rest = [] then [] else [tornTail rest]) = B at *
    obtain ⟨prev, hskip⟩ := chain_loop_skip hret (by omega)
    rw [hskip] at hret hk ⊢
    rw [Nat.zero_add] at hret hk ⊢
    constructor
    · intro hfound hnul
      have hsame : cstr (tornTail pre ++ b' :: (v ++ [newline])) =
          cstr (tornTail pre ++ b :: (v ++ [newline])) := by
        rw [cstr_append_of_mem hnul, cstr_append_of_mem hnul]
      rw [chain_loop_cstr_congr hsame, hret] at hfound
      exact absurd hfound.1 (by decide)
    · intro hnul
      refine chain_loop_changed hret hk ?_
      rw [cstr_append hnul, cstr_append hnul, cstr_cons hb.2, cstr_cons hb'.2]
      exact line_hash_byte_ne hne _ _ _
  · -- A line without newline is the last one.
    have hchunks : journal_chunks (pre ++ b :: post) = completeLines pre ++ [tornTail pre ++ b :: post] := by
      rw [journal_chunks_eq hfit, (lines_torn hb.1 hpost).1, (lines_torn hb.1 hpost).2, if_neg (by simp)]
    have hle := @chain_loop_lines_out_le stop_at 0 start_prev (journal_chunks (pre ++ b :: post))
    rw [hchunks] at hle hk
    simp only [length_append, length_cons, length_nil] at hle
    omega

def carrier (prev : UInt64) (tail : Bytes) : Bytes :=
  prev_marker ++ fmtHex16 prev ++ [dquote] ++ tail ++ [newline]

/-- A line with `tail` behind its link, and a line that carries the link of the line with `tail₀`. -/
def two_lines (tail₀ tail : Bytes) : Bytes :=
  carrier 0 tail ++ carrier (retraced_journal_line_hash (cstr (carrier 0 tail₀)) 0) []

theorem byte_change_found :
    (retraced_journal_chain_file_from (fun _ => some (two_lines (bytes "ax") (bytes "ay"))) [] 0 0).ret
      = -1 :=
  ((byte_change_found_iff (fun _ => some (two_lines (bytes "ax") (bytes "ax")))
    (fun _ => some (two_lines (bytes "ax") (bytes "ay"))) [] 0 0 2
    (prev_marker ++ fmtHex16 0 ++ [dquote] ++ bytes "a")
    (newline :: carrier (retraced_journal_line_hash (cstr (carrier 0 (bytes "ax"))) 0) []) 120 121
    (by decide_cbv) (by decide_cbv) (by decide) (by decide) (by decide)
    (by decide) (by decide) (by decide) (by decide)).mpr (by decide)).1

/-- The first of two lines has a NUL in it. The file is accepted as it is, and also with the byte behind
the NUL changed. -/
theorem byte_change_missed :
    ∃ pre post : Bytes, (completeLines pre).length = 0 ∧ FitLines (pre ++ 120 :: post) ∧
      (retraced_journal_chain_file_from (fun _ => some (pre ++ 120 :: post)) [] 0 0).ret = 0 ∧
      (retraced_journal_chain_file_from (fun _ => some (pre ++ 120 :: post)) [] 0 0).lines_out = 2 ∧
      (retraced_journal_chain_file_from (fun _ => some (pre ++ 121 :: post)) [] 0 0).ret = 0 :=
  ⟨prev_marker ++ fmtHex16 0 ++ [dquote, 0],
    newline :: carrier (retraced_journal_line_hash (cstr (carrier 0 [0, 120])) 0) [],
    by decide⟩

end Retrace.Retraced
