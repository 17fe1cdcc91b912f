import Retrace.Strace.Convert
import Retrace.CLib.Proofs.StrtodProofs
import Retrace.Json.Proofs.Utf8Proofs

/-!
# Which paths are recorded as they are

Of the escapes only those for a line feed, a tab, a carriage return, a quote and a backslash are undone.
Of the others the letter or the digits are kept, so that a text without such bytes is recorded in place of
the path.
-/

namespace Retrace.Strace

open CLib Parson List

variable {c d : UInt8}

def Recordable (c : UInt8) : Prop := c = 10 ∨ c = 9 ∨ c = 13 ∨ 32 ≤ c ∧ c < 127

instance (c : UInt8) : Decidable (Recordable c) := inferInstanceAs (Decidable (_ ∨ _))

/-- How many bytes of the path's buffer a byte takes: the letter or the digits of an escape that is not undone. -/
def PathByte.width (q : PathByte) : Nat := if Recordable q.byte then 1 else q.text.length - 1

def PathByte.read (q : PathByte) : Bytes := if Recordable q.byte then [q.byte] else q.text.tail

theorem mem_octal (h : d ∈ octal c) : d ≠ dquote ∧ d ≠ backslash ∧ unescaped d = d ∧ Recordable d := by
  have hdigit : ∀ k < 8, decDigit k ≠ dquote ∧ decDigit k ≠ backslash ∧ unescaped (decDigit k) = decDigit k ∧
      Recordable (decDigit k) := by decide
  have := c.toNat_lt
  simp only [octal, mem_cons, not_mem_nil, or_false] at h
  rcases h with rfl | rfl | rfl <;> exact hdigit _ (by omega)

theorem PathByte.read_spec (q : PathByte) : (∀ d ∈ q.read, Recordable d) ∧
    ((q.text = q.read ∧ ∀ d ∈ q.read, d ≠ dquote ∧ d ≠ backslash) ∨
      ∃ d ds, q.text = backslash :: d :: ds ∧ q.read = unescaped d :: ds ∧ ∀ e ∈ ds, e ≠ dquote ∧
        e ≠ backslash) := by
  obtain ⟨c, text, hc⟩ := q
  unfold Quotes at hc
  split_ifs at hc with h10 h9 h13 h11 h12 hesc hprint
  iterate 5
    next =>
      subst_vars
      exact ⟨forall_mem_singleton.2 (of_decide_eq_true rfl), .inr ⟨_, [], rfl, rfl, by simp⟩⟩
  · rcases hesc with rfl | rfl <;> subst hc <;>
      exact ⟨forall_mem_singleton.2 (of_decide_eq_true rfl), .inr ⟨_, [], rfl, rfl, by simp⟩⟩
  · subst hc
    have hread : Recordable c := .inr (.inr (.inr hprint))
    simpa [read, hread] using not_or.1 hesc
  · obtain ⟨k, ds, rfl, hne, hds⟩ := hc
    have hread : ¬ Recordable c := by
      unfold Recordable
      tauto
    have hdigit : ∀ d ∈ ds, d ∈ octal c := fun d hd => hds ▸ mem_append_right _ hd
    obtain ⟨d, ds, rfl⟩ := exists_cons_of_ne_nil hne
    simp only [read, if_neg hread, tail_cons]
    exact ⟨fun e he => (mem_octal (hdigit e he)).2.2.2, .inr ⟨d, ds, rfl,
      by rw [(mem_octal (hdigit d mem_cons_self)).2.2.1],
      fun e he => ((mem_octal (hdigit e (mem_cons_of_mem _ he))).imp_right And.left)⟩⟩

theorem flatMap_read_eq_iff (p : List PathByte) :
    p.flatMap PathByte.read = p.map PathByte.byte ↔ ∀ q ∈ p, Recordable q.byte := by
  constructor
  · intro h q hq
    have hmem : q.byte ∈ p.flatMap PathByte.read := h ▸ mem_map_of_mem hq
    obtain ⟨q', -, hq'⟩ := mem_flatMap.1 hmem
    exact q'.read_spec.1 _ hq'
  · intro h
    rw [map_eq_flatMap]
    exact flatMap_congr fun q hq => if_pos (h q hq)

theorem length_flatMap_read (p : List PathByte) :
    (p.flatMap PathByte.read).length = (p.map PathByte.width).sum := by
  have hlen : ∀ q : PathByte, q.read.length = q.width := fun q => by
    unfold PathByte.read PathByte.width
    split_ifs <;> simp
  simp only [length_flatMap, hlen]

theorem unescape_loop_plain (hw : ∀ c ∈ w, c ≠ dquote ∧ c ≠ backslash) (hdst : dst.length < n) :
    unescape_loop n (w ++ s) dst = if n ≤ dst.length + w.length then none else unescape_loop n s (dst ++ w) := by
  induction w generalizing dst with
  | nil => simp [hdst]
  | cons c w ih =>
    obtain ⟨⟨hq, hb⟩, hw⟩ := forall_mem_cons.1 hw
    rw [cons_append, unescape_loop.eq_def]
    simp only [if_neg hq, if_neg hb, length_cons]
    split_ifs with h1 h2 h2
    · rfl
    · omega
    · rw [ih hw (by simpa using h1), if_pos (by simp; omega)]
    · rw [ih hw (by simpa using h1), if_neg (by simp; omega), append_assoc, singleton_append]

theorem unescape_text (q : PathByte) (hdst : dst.length < n) : unescape_loop n (q.text ++ s) dst =
    if n ≤ (dst ++ q.read).length then none else unescape_loop n s (dst ++ q.read) := by
  rw [length_append]
  obtain ⟨-, ⟨htext, hplain⟩ | ⟨d, ds, htext, hread, hplain⟩⟩ := q.read_spec
  · rw [htext]
    exact unescape_loop_plain hplain hdst
  · rw [htext, hread, cons_append, cons_append, unescape_loop.eq_def]
    simp only [if_neg (by decide : backslash ≠ dquote), if_true, length_cons]
    split_ifs with h1 h2 h2
    · rfl
    · omega
    · rw [unescape_loop_plain hplain (by simpa using h1), if_pos (by simp; omega)]
    · rw [unescape_loop_plain hplain (by simpa using h1), if_neg (by simp; omega), append_assoc, singleton_append]

theorem unescape_quoted (p : List PathByte) (hdst : dst.length < n) :
    unescape_loop n (p.flatMap PathByte.text ++ dquote :: s) dst =
      if (dst ++ p.flatMap PathByte.read).length < n then some (dst ++ p.flatMap PathByte.read, s) else none := by
  induction p generalizing dst with
  | nil =>
    rw [flatMap_nil, nil_append, unescape_loop.eq_def]
    simp [hdst]
  | cons q p ih =>
    rw [flatMap_cons, flatMap_cons, append_assoc, unescape_text q hdst, ← append_assoc]
    split_ifs with h1 h2 h2
    · rw [length_append] at h2
      omega
    · rfl
    · rw [ih (by omega), if_pos h2]
    · rw [ih (by omega), if_neg h2]

theorem strtol_end_fmtNat (k : Nat) (hs : ∀ c ∈ s.head?, isdigit c = false) : strtol_end (fmtNat k ++ s) = s := by
  obtain ⟨d, t, ht⟩ := exists_cons_of_ne_nil (fmtNat_ne_nil k)
  have hd : ∀ c ∈ d :: t, isdigit c = true := fun c hc => isdigit_of_mem_fmtNat (ht ▸ hc)
  have hdig := hd d mem_cons_self
  have hsign : takeSign (d :: (t ++ s)) = (false, d :: (t ++ s)) := by
    rw [takeSign, if_neg (ne_of_isdigit hdig (by decide)), if_neg (ne_of_isdigit hdig (by decide))]
  have hrest : s.dropWhile isdigit = s := by
    cases s with
    | nil => rfl
    | cons c s => exact dropWhile_cons_of_neg (by simpa using hs c)
  rw [strtol_end, ht, cons_append, dropWhile_cons_of_neg (by simp [isspace_of_isdigit hdig]), hsign]
  simp only [head?_cons, Option.any_some, hdig, if_true]
  rw [← cons_append, dropWhile_append_of_pos hd, hrest]

theorem skip_pid_text (pid : Pid) (hs : ∀ c ∈ s.head?, isdigit c = false ∧ c ≠ lbracket) :
    (skip_pid (pid.text ++ s)).2 = s := by
  have hbracket : ∀ c t, c ≠ lbracket → (bytes "[pid ").isPrefixOf (c :: t) = false := by
    intro c t hc
    exact Bool.and_eq_false_imp.2 fun h => absurd (eq_of_beq h).symm hc
  cases pid with
  | none =>
    cases s with
    | nil => rfl
    | cons c s =>
      obtain ⟨hdig, hc⟩ := hs c rfl
      simp [Pid.text, skip_pid, hbracket c s hc, hdig]
  | bracket n =>
    have hpid : (Pid.bracket n).text ++ s = bytes "[pid " ++ (fmtNat n ++ rbracket :: s) := by simp [Pid.text]
    have hdrop : (bytes "[pid " ++ (fmtNat n ++ rbracket :: s)).drop 5 = fmtNat n ++ rbracket :: s := rfl
    have hend : strtol_end (fmtNat n ++ rbracket :: s) = rbracket :: s := strtol_end_fmtNat n (by simp; decide)
    rw [skip_pid, hpid, if_pos <| isPrefixOf_iff_prefix.2 (prefix_append _ _)]
    simp [hdrop, hend]
  | column n =>
    obtain ⟨d, t, ht⟩ := exists_cons_of_ne_nil (fmtNat_ne_nil n)
    have hd : isdigit d = true := isdigit_of_mem_fmtNat (ht ▸ mem_cons_self)
    have hend := strtol_end_fmtNat n fun c hc => (hs c hc).1
    rw [skip_pid, Pid.text, hend, ht, cons_append, hbracket d _ (ne_of_isdigit hd (by decide))]
    simp [hd]

theorem init_string_recordable (h : ∀ c ∈ s, Recordable c) : json_value_init_string s = some (.string s) := by
  have hascii : ∀ c ∈ s, c ≠ 0 ∧ c < 128 := fun c hc => by
    rcases h c hc with rfl | rfl | rfl | ⟨h32, h127⟩
    · decide
    · decide
    · decide
    · exact ⟨by rintro rfl; exact absurd h32 (by decide), UInt8.lt_trans h127 (by decide)⟩
  rw [json_value_init_string, cstr_eq_self fun h => (hascii 0 h).1 rfl,
    if_pos (is_valid_utf8_of_ascii fun c hc => (hascii c hc).2)]

theorem convert_line_text (l : Line) (out : List Entry) : if (l.path.flatMap PathByte.read).length < 1024 then
      ∃ e, convert_line l.text out = (1, out ++ [e]) ∧ e.path = some (.string (l.path.flatMap PathByte.read))
    else convert_line l.text out = (0, out) := by
  have htable : ∀ f ∈ g_file_funcs, 40 ∉ f ∧ ∃ c ∈ f.head?, c ≠ 32 ∧ isdigit c = false ∧ c ≠ lbracket := by decide
  obtain ⟨hparen, c, hc, hspace, hdig, hbracket⟩ := htable l.func l.file
  obtain ⟨t, hfunc⟩ := head?_eq_some_iff.1 hc
  have hpid : (skip_pid l.text).2 = replicate l.spaces 32 ++ l.call := by
    refine skip_pid_text l.pid fun d hd => ?_
    cases hn : l.spaces with
    | zero => simp_all [Line.call]
    | succ n =>
      obtain rfl : 32 = d := by simpa [hn, replicate_succ] using hd
      decide
  have hspaces : (skip_pid l.text).2.dropWhile (· = 32) = l.call := by
    rw [hpid, dropWhile_append_of_pos (by simp), Line.call, hfunc, cons_append,
      dropWhile_cons_of_neg (by simpa using hspace)]
  have hopen : ∀ c ∈ l.func, decide (c ≠ 40) = true := fun c hc => by simpa using fun h : c = 40 => hparen (h ▸ hc)
  have hquote : ∀ c ∈ 40 :: l.args, decide (c ≠ dquote) = true := by
    simpa [dquote] using fun c hc (h : c = dquote) => l.args_unquoted (h ▸ hc)
  have hcall : 40 ∈ l.call ∧ l.call.takeWhile (· ≠ 40) = l.func := by
    rw [Line.call, takeWhile_append_of_pos hopen, takeWhile_cons_of_neg (by simp), append_nil]
    exact ⟨by simp, rfl⟩
  have hun : unescape ((l.call.dropWhile (· ≠ 40)).dropWhile (· ≠ dquote)) 1024 =
      if (l.path.flatMap PathByte.read).length <
        1024 then some (l.path.flatMap PathByte.read, l.rest) else none := by
    rw [Line.call, dropWhile_append_of_pos hopen, dropWhile_cons_of_neg (by simp), ← cons_append,
      dropWhile_append_of_pos hquote, dropWhile_cons_of_neg (by simp)]
    exact unescape_quoted _ (by decide)
  simp only [convert_line, hspaces, hcall, hun, l.file, not_true, or_self, if_false]
  split_ifs with hfit
  · refine ⟨_, rfl, init_string_recordable fun c hc => ?_⟩
    obtain ⟨q, -, hq⟩ := mem_flatMap.1 hc
    exact q.read_spec.1 c hq
  · rfl

/-- A line is converted faithfully just when its path has recordable bytes only or so many others that
their escapes do not fit. -/
theorem faithful_iff (l : Line) (out : List Entry) :
    Faithful l out ↔ (∀ q ∈ l.path, Recordable q.byte) ∨ 1024 ≤ (l.path.map PathByte.width).sum := by
  have hline := convert_line_text l out
  rw [← flatMap_read_eq_iff, ← length_flatMap_read]
  split_ifs at hline with hfit
  · obtain ⟨e, he, hpath⟩ := hline
    constructor
    · rintro (⟨e', he', hpath'⟩ | hskip)
      · rw [he] at he'
        obtain rfl : e = e' := by simpa using he'
        rw [hpath] at hpath'
        exact .inl (by simpa using hpath')
      · rw [he] at hskip
        cases hskip
    · rintro (heq | hlong)
      · exact .inl ⟨e, he, hpath.trans (by rw [heq])⟩
      · omega
  · exact iff_of_true (.inr hline) (.inr (by omega))

def tabLine : Line :=
  ⟨.none, 0, bytes "open", [], [⟨47, [47], rfl⟩, ⟨11, bytes "\\v", rfl⟩],
    bytes ")", by decide, by decide, by decide,
    by decide⟩

/-- The vertical tab becomes a letter. -/
theorem tab_recorded_as_letter : tabLine.text = bytes "open(\"/\\v\")" ∧ ¬ Faithful tabLine [] := by
  refine ⟨by decide, ?_⟩
  have hletter : (convert_line tabLine.text []).2.map Entry.path = [some (.string (bytes "/v"))] := rfl
  rintro (⟨e, he, hpath⟩ | hskip)
  · rw [he, nil_append, map_singleton, hpath] at hletter
    exact absurd (JsonValue.string.inj (Option.some.inj (singleton_inj.mp hletter))) (by decide)
  · rw [hskip] at hletter
    cases hletter

end Retrace.Strace
