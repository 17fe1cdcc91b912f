import Retrace.Core.FuzzDict

/-!
# Loading a fuzz dictionary

The length of a template is counted from the beginning of its line and its text is taken from behind the `@`, so a
template with blanks in front is followed by as many bytes of what comes next. A dictionary within the limits is
loaded line by line exactly when no template has blanks in front, or only such that the bytes that are copied with
it begin with a NUL and lie in the buffer.
-/

namespace Retrace.Core

open CLib List Option

variable {x : Nat × Bytes}

theorem length_le_expand_loop (h : expand_loop flat out_max skip out p = some e) : out.length ≤ e.length := by
  induction p generalizing skip out with
  | nil =>
    rw [expand_loop] at h
    cases h
    exact le_rfl
  | cons c p ih =>
    cases skip with
    | succ skip =>
      rw [expand_loop] at h
      exact ih h
    | zero =>
      rw [expand_loop] at h
      cases href : reference c p with
      | none =>
        rw [href] at h
        dsimp only at h
        split_ifs at h
        exact le_trans (by simp) (ih h)
      | some idx =>
        rw [href] at h
        dsimp only at h
        cases htok : flat[idx]? with
        | none => simp [htok] at h
        | some tok =>
          rw [htok] at h
          dsimp only at h
          split_ifs at h
          exact le_trans (by simp) (ih h)

theorem reference_newline : reference c (p ++ 10 :: r) = reference c p := by
  match p with
  | [] =>
    cases r with
    | nil => rfl
    | cons e r => simp [reference]
  | [d] => simp [reference]
  | d :: e :: p => rfl

theorem skip_le_of_reference (h : reference c p = some idx) : 2 ≤ p.length := by
  match p with
  | [] => simp [reference] at h
  | [d] => simp [reference] at h
  | d :: e :: p => simp

theorem expand_loop_newline (hskip : skip ≤ p.length)
    (h : expand_loop flat out_max skip out (p ++ 10 :: r) = some e) :
    ∃ e', expand_loop flat out_max skip out p = some e' ∧ e'.length < e.length := by
  induction p generalizing skip out with
  | nil =>
    obtain rfl : skip = 0 := by simpa using hskip
    have href : reference 10 r = none := by
      match r with
      | [] => rfl
      | [d] => rfl
      | d :: e :: r => simp [reference]
    rw [nil_append, expand_loop, href] at h
    dsimp only at h
    split_ifs at h
    have hlen := length_le_expand_loop h
    rw [length_append, length_singleton] at hlen
    exact ⟨out, by rw [expand_loop], by omega⟩
  | cons c p ih =>
    cases skip with
    | succ skip =>
      rw [cons_append, expand_loop] at h
      rw [expand_loop]
      exact ih (by simpa using hskip) h
    | zero =>
      rw [cons_append, expand_loop, reference_newline] at h
      rw [expand_loop]
      cases href : reference c p with
      | none =>
        rw [href] at h
        dsimp only at h ⊢
        split_ifs at h with hmax
        rw [if_neg hmax]
        exact ih (Nat.zero_le _) h
      | some idx =>
        rw [href] at h
        dsimp only at h ⊢
        cases htok : flat[idx]? with
        | none => simp [htok] at h
        | some tok =>
          rw [htok] at h
          dsimp only at h ⊢
          split_ifs at h with hmax
          rw [if_neg hmax]
          exact ih (skip_le_of_reference href) h

theorem expand_template_newline :
    expand_template flat (t ++ 10 :: r) ≠ expand_template flat t ∨ expand_template flat t = none := by
  cases h : expand_template flat (t ++ 10 :: r) with
  | none =>
    cases ht : expand_template flat t with
    | none => exact .inr rfl
    | some e => exact .inl (by simp)
  | some e =>
    obtain ⟨e', he', hlt⟩ := expand_loop_newline (Nat.zero_le _) h
    refine .inl fun heq => ?_
    have : expand_template flat t = some e' := he'
    rw [this, some.injEq] at heq
    rw [heq] at hlt
    exact lt_irrefl _ hlt

theorem mem_lines_from (h : x ∈ lines_from content fuel i) :
    x.1 < content.length ∧ x.2 = first_line (content.drop x.1) := by
  induction fuel generalizing i with
  | zero => simp [lines_from] at h
  | succ fuel ih =>
    rw [lines_from] at h
    split_ifs at h with hi
    · rcases mem_cons.mp h with rfl | h
      · exact ⟨hi, rfl⟩
      · exact ih h
    · simp at h

theorem mem_template_lines {content : Bytes} (h : x ∈ template_lines content) :
    x.1 < content.length ∧ x.2 = first_line (content.drop x.1) ∧ is_template x.2 = true := by
  obtain ⟨hmem, htmpl⟩ := mem_filter.mp h
  obtain ⟨hlt, hline⟩ := mem_lines_from hmem
  exact ⟨hlt, hline, htmpl⟩

theorem lead_lt_of_is_template (h : is_template line = true) : lead_of line < line.length := by
  by_contra hle
  rw [is_template, mark, drop_eq_nil_of_le (not_lt.mp hle)] at h
  simp at h

theorem not_mem_first_line (h : c ∈ first_line rest) : c ≠ 0 ∧ c ≠ 10 := by
  simpa using mem_takeWhile_imp h

theorem behind_first_line (h : rest[(first_line rest).length]? = some c) : c = 0 ∨ c = 10 := by
  induction rest with
  | nil => simp at h
  | cons d rest ih =>
    by_cases hd : d ≠ 0 ∧ d ≠ 10
    · have hline : first_line (d :: rest) = d :: first_line rest := by simp [first_line, hd]
      rw [hline, length_cons, getElem?_cons_succ] at h
      exact ih h
    · have hline : first_line (d :: rest) = [] := by simp [first_line, hd]
      rw [hline, length_nil, getElem?_cons_zero, some.injEq] at h
      rw [h] at hd
      tauto

theorem first_line_append : first_line rest ++ rest.drop (first_line rest).length = rest := by
  have hprefix : first_line rest <+: rest := takeWhile_prefix _
  conv_rhs => rw [← take_append_drop (first_line rest).length rest]
  rw [← prefix_iff_eq_take.mp hprefix]

def copied_range (x : Nat × Bytes) : Nat × Nat :=
  (x.1 + lead_of x.2 + 1, min (x.2.length - 1) (FUZZ_DICT_TOKEN_MAX - 1))

def copied_text (content : Bytes) (beyond : Nat → UInt8) (x : Nat × Bytes) : Bytes :=
  (raw_copy content beyond (copied_range x).1 (copied_range x).2).takeWhile (· ≠ 0)

theorem copied_text_eq (beyond : Nat → UInt8) (hx : x ∈ template_lines content)
    (hlen : x.2.length ≤ FUZZ_DICT_TOKEN_MAX) : ∃ more, copied_text content beyond x =
      template_text x.2 ++
        (((content[x.1 + x.2.length]?).getD 0 :: more).take (lead_of x.2)).takeWhile (· ≠ 0) := by
  obtain ⟨i, line⟩ := x
  obtain ⟨hlt, hline, htmpl⟩ := mem_template_lines hx
  have hlead := lead_lt_of_is_template htmpl
  dsimp only at hlt hline hlead hlen htmpl ⊢
  have hmin : min (line.length - 1) (FUZZ_DICT_TOKEN_MAX - 1) = line.length - 1 := by omega
  -- The buffer from the line on.
  have hdrop : content.drop i = line ++ content.drop (i + line.length) := by
    rw [← drop_drop, hline, first_line_append]
  obtain ⟨more, hmore⟩ : ∃ more, content.drop (i + line.length) ++
      0 :: (range (line.length - 1)).map beyond = (content[i + line.length]?).getD 0 :: more := by
    cases hget : content[i + line.length]? with
    | none =>
      rw [drop_eq_nil_of_le (List.getElem?_eq_none_iff.mp hget)]
      exact ⟨_, rfl⟩
    | some c =>
      obtain ⟨hi, rfl⟩ := List.getElem?_eq_some_iff.mp hget
      rw [drop_eq_getElem_cons hi]
      exact ⟨_, rfl⟩
  have hraw : (content ++ 0 :: (range (line.length - 1)).map beyond).drop i =
      line ++ ((content[i + line.length]?).getD 0 :: more) := by
    rw [drop_append_of_le_length hlt.le, hdrop, append_assoc, hmore]
  refine ⟨more, ?_⟩
  have htext : ∀ c ∈ template_text line, decide (c ≠ 0) = true := by
    intro c hc
    have hmem : c ∈ first_line (content.drop i) := hline ▸ mem_of_mem_drop hc
    simpa using (not_mem_first_line hmem).1
  have htake : line.length - 1 = (template_text line).length + lead_of line := by
    rw [template_text, length_drop]
    omega
  rw [copied_text, copied_range, raw_copy]
  dsimp only
  rw [hmin, Nat.add_assoc, ← drop_drop, hraw, drop_append_of_le_length (by omega), ← template_text, htake,
    take_length_add_append, takeWhile_append_of_pos htext]

theorem copied_text_of_good {content : Bytes} (beyond : Nat → UInt8)
    (hx : x ∈ template_lines content) (hlen : x.2.length ≤ FUZZ_DICT_TOKEN_MAX)
    (h : lead_of x.2 = 0 ∨ content[x.1 + x.2.length]? ≠ some 10) :
    copied_text content beyond x = template_text x.2 := by
  obtain ⟨more, hmore⟩ := copied_text_eq beyond hx hlen
  rw [hmore, append_right_eq_self]
  rcases h with h | h
  · rw [h, take_zero]
    rfl
  · have hzero : (content[x.1 + x.2.length]?).getD 0 = 0 := by
      cases hget : content[x.1 + x.2.length]? with
      | none => rfl
      | some c =>
        obtain ⟨-, hline, -⟩ := mem_template_lines hx
        have hbehind : (content.drop x.1)[(first_line (content.drop x.1)).length]? = some c := by
          rw [getElem?_drop, ← hline, hget]
        rcases behind_first_line hbehind with rfl | rfl
        · rfl
        · exact absurd hget h
    rw [hzero]
    cases lead_of x.2 with
    | zero => rfl
    | succ n => simp

theorem copied_text_of_bad {content : Bytes} (beyond : Nat → UInt8)
    (hx : x ∈ template_lines content) (hlen : x.2.length ≤ FUZZ_DICT_TOKEN_MAX) (hlead : lead_of x.2 ≠ 0)
    (hnl : content[x.1 + x.2.length]? = some 10) :
    ∃ r, copied_text content beyond x = template_text x.2 ++ 10 :: r := by
  obtain ⟨more, hmore⟩ := copied_text_eq beyond hx hlen
  obtain ⟨n, hn⟩ := Nat.exists_eq_succ_of_ne_zero hlead
  rw [hnl, hn] at hmore
  exact ⟨_, by simpa using hmore⟩

theorem scan_line_other (hflat : is_flat line = false) (htmpl : is_template line = false) :
    scan_line content beyond i line d = d := by
  rw [scan_line]
  cases hmark : mark line with
  | none =>
    rw [mark] at hmark
    simp [hmark]
  | some c =>
    rw [is_flat, hmark] at hflat
    rw [is_template, hmark] at htmpl
    have hc : c = 35 := by
      by_contra hne
      simp [hne] at hflat
      simp [hflat] at htmpl
    rw [mark] at hmark
    simp [hmark, hc]

theorem scan_line_template (h : is_template x.2 = true) (hroom : d.templates.length < FUZZ_DICT_MAX) :
    scan_line content beyond x.1 x.2 d =
      { d with
        templates := d.templates ++ [copied_text content beyond x]
        copies := d.copies ++ [copied_range x] } := by
  have hmark : (x.2.drop (lead_of x.2)).head? = some 64 := by simpa [is_template, mark] using h
  rw [scan_line]
  simp [hmark, hroom, copied_text, copied_range]

theorem scan_line_flat (h : is_flat line = true) : scan_line content beyond i line d =
      { d with tokens := d.tokens ++ [(trimmed line).take (FUZZ_DICT_TOKEN_MAX - 1)] } := by
  rw [is_flat, mark] at h
  rw [scan_line]
  cases hmark : (line.drop (lead_of line)).head? with
  | none => simp [hmark] at h
  | some c =>
    rw [hmark, any_some, Bool.and_eq_true, bne_iff_ne, bne_iff_ne] at h
    simp [h.1, h.2, trimmed]

theorem not_template_of_flat (h : is_flat line = true) : is_template line = false := by
  rw [is_flat] at h
  rw [is_template]
  cases hmark : mark line with
  | none => rfl
  | some c =>
    rw [hmark, any_some, Bool.and_eq_true, bne_iff_ne, bne_iff_ne] at h
    simpa using h.2

theorem scan_lines_eq
    (hroom : d.tokens.length + ((lines_from content fuel i).filter fun x => is_flat x.2).length +
      ((lines_from content fuel i).filter fun x => is_template x.2).length ≤ FUZZ_DICT_MAX)
    (hcopies : d.templates.length + ((lines_from content fuel i).filter fun x =>
      is_template x.2).length ≤ FUZZ_DICT_MAX) :
    scan_lines content beyond fuel i d =
      { tokens := d.tokens ++ ((lines_from content fuel i).filter fun x => is_flat x.2).map fun x =>
          (trimmed x.2).take (FUZZ_DICT_TOKEN_MAX - 1)
        templates := d.templates ++
          ((lines_from content fuel i).filter fun x => is_template x.2).map (copied_text content beyond)
        copies := d.copies ++
          ((lines_from content fuel i).filter fun x => is_template x.2).map copied_range } := by
  induction fuel generalizing i d with
  | zero => simp [scan_lines, lines_from]
  | succ fuel ih =>
    rw [scan_lines]
    by_cases hi : i < content.length
    · by_cases hfull : d.tokens.length < FUZZ_DICT_MAX
      · rw [if_pos ⟨hi, hfull⟩]
        dsimp only
        rw [lines_from, if_pos hi] at hroom hcopies ⊢
        cases hflat : is_flat (first_line (content.drop i)) with
        | true =>
          have htmpl := not_template_of_flat hflat
          simp [hflat, htmpl] at hroom hcopies
          rw [scan_line_flat hflat, ih (by simp; omega) (by simpa using hcopies)]
          simp [hflat, htmpl]
        | false =>
          cases htmpl : is_template (first_line (content.drop i)) with
          | true =>
            simp [hflat, htmpl] at hroom hcopies
            rw [scan_line_template (x := (i, first_line (content.drop i))) htmpl (by omega),
              ih (by simp; omega) (by simp; omega)]
            simp [hflat, htmpl]
          | false =>
            simp [hflat, htmpl] at hroom hcopies
            rw [scan_line_other hflat htmpl, ih (by simpa using hroom) (by simpa using hcopies)]
            simp [hflat, htmpl]
      · -- No token and no template is left.
        have hflat : ((lines_from content (fuel + 1) i).filter fun x => is_flat x.2) = [] :=
          length_eq_zero_iff.mp (by omega)
        have htmpl : ((lines_from content (fuel + 1) i).filter fun x => is_template x.2) = [] :=
          length_eq_zero_iff.mp (by omega)
        rw [if_neg (fun h => hfull h.2), hflat, htmpl]
        simp
    · rw [if_neg (fun h => hi h.1), lines_from, if_neg hi]
      simp

theorem scan_file_eq (h : WithinLimits content) :
    scan_file content beyond =
      { tokens := flat_tokens content
        templates := (template_lines content).map (copied_text content beyond)
        copies := (template_lines content).map copied_range } := by
  have hcount := h.count
  rw [flat_tokens, length_map, template_lines] at hcount
  have hroom : ((dict_lines content).filter fun x => is_template x.2).length ≤ FUZZ_DICT_MAX := by omega
  rw [scan_file, scan_lines_eq (by simpa [dict_lines] using hcount)
    (by simpa [dict_lines] using hroom), ← dict_lines]
  simp only [nil_append, DictScan.mk.injEq, template_lines, and_true]
  rw [flat_tokens]
  refine map_congr_left fun x hx => take_of_length_le ?_
  have := h.flat_size (trimmed x.2) (mem_map_of_mem hx)
  omega

theorem expand_all_eq {tokens ts : List Bytes} (h : tokens.length + ts.length ≤ FUZZ_DICT_MAX) :
    expand_all flat tokens ts = (ts.mapM (expand_template flat)).map (tokens ++ ·) := by
  induction ts generalizing tokens with
  | nil => simp [expand_all]
  | cons t ts ih =>
    rw [length_cons] at h
    rw [expand_all, if_neg (by omega), mapM_cons]
    cases expand_template flat t with
    | none => rfl
    | some e =>
      rw [bind_some, ih (by rw [length_append, length_singleton]; omega)]
      cases ts.mapM (expand_template flat) <;> simp

theorem mapM_eq_of_forall {f g : α → Option Bytes} {xs : List α} (h : ∀ x ∈ xs, f x = g x) :
    xs.mapM f = xs.mapM g := by
  induction xs with
  | nil => rfl
  | cons x xs ih =>
    obtain ⟨hx, hxs⟩ := forall_mem_cons.mp h
    rw [mapM_cons, mapM_cons, hx, ih hxs]

theorem forall_eq_of_mapM {f g : α → Option Bytes} {xs : List α} {e : List Bytes}
    (hf : xs.mapM f = some e) (hg : xs.mapM g = some e) : ∀ x ∈ xs, f x = g x := by
  induction xs generalizing e with
  | nil => simp
  | cons x xs ih =>
    rw [mapM_cons] at hf hg
    obtain ⟨a, ha, hf⟩ := bind_eq_some_iff.mp hf
    obtain ⟨as, has, hf⟩ := bind_eq_some_iff.mp hf
    obtain ⟨b, hb, hg⟩ := bind_eq_some_iff.mp hg
    obtain ⟨bs, hbs, hg⟩ := bind_eq_some_iff.mp hg
    obtain rfl := some.inj hf
    obtain ⟨rfl, rfl⟩ := List.cons.inj (some.inj hg)
    exact forall_mem_cons.mpr ⟨ha.trans hb.symm, ih has hbs⟩

theorem exists_mapM {f : α → Option Bytes} {xs : List α} (h : ∀ x ∈ xs, (f x).isSome) :
    ∃ e, xs.mapM f = some e := by
  induction xs with
  | nil => exact ⟨[], rfl⟩
  | cons x xs ih =>
    obtain ⟨hx, hxs⟩ := forall_mem_cons.mp h
    obtain ⟨a, ha⟩ := isSome_iff_exists.mp hx
    obtain ⟨e, he⟩ := ih hxs
    exact ⟨a :: e, by rw [mapM_cons, ha, he]; rfl⟩

theorem fuzz_dict_load_eq {content : Bytes} (h : WithinLimits content) (beyond : Nat → UInt8) :
    fuzz_dict_load content beyond =
      ((template_lines content).mapM fun x =>
        expand_template (flat_tokens content) (copied_text content beyond x)).map (flat_tokens content ++ ·) := by
  rw [fuzz_dict_load, take_of_length_le h.size, scan_file_eq h]
  dsimp only
  rw [expand_all_eq (by rw [length_map]; exact h.count), mapM_map]
  rfl

/-- A dictionary within the limits is loaded line by line exactly when its templates are not indented. -/
theorem loads_by_line_iff (content : Bytes) (h : WithinLimits content) :
    LoadsByLine content ↔ Unindented content := by
  have hrange : ∀ x ∈ template_lines content, (copied_range x).2 = x.2.length - 1 ∧ 0 < x.2.length := by
    intro x hx
    have hlen := h.template_size x hx
    have hlead := lead_lt_of_is_template (mem_template_lines hx).2.2
    rw [copied_range]
    exact ⟨by omega, by omega⟩
  constructor
  · intro hload x hx
    by_cases hlead : lead_of x.2 = 0
    · exact .inl hlead
    · refine .inr ⟨fun hnl => ?_, ?_⟩
      · obtain ⟨r, hr⟩ := copied_text_of_bad (fun _ => 0) hx (h.template_size x hx) hlead hnl
        obtain ⟨expanded, hright, htokens⟩ := hload.tokens fun _ => 0
        rw [fuzz_dict_load_eq h] at htokens
        obtain ⟨copied, hcopied, heq⟩ := map_eq_some_iff.mp htokens
        obtain rfl := append_cancel_left heq
        have hsame := forall_eq_of_mapM hcopied hright x hx
        rw [hr] at hsame
        rcases expand_template_newline with hne | hnone
        · exact hne hsame
        · have := h.expands x hx
          rw [hnone] at this
          cases this
      · have hinside := hload.inside (fun _ => 0) (copied_range x) (by
          rw [scan_file_eq h]
          exact mem_map_of_mem hx)
        obtain ⟨hsize, hpos⟩ := hrange x hx
        rw [hsize, copied_range] at hinside
        dsimp only at hinside
        omega
  · intro hgood
    have htext : ∀ beyond, ∀ x ∈ template_lines content, copied_text content beyond x = template_text x.2 :=
      fun beyond x hx => copied_text_of_good beyond hx (h.template_size x hx) ((hgood x hx).imp_right And.left)
    refine ⟨fun beyond => ?_, fun beyond r hr => ?_⟩
    · obtain ⟨expanded, hexpanded⟩ := exists_mapM h.expands
      refine ⟨expanded, hexpanded, ?_⟩
      rw [fuzz_dict_load_eq h, mapM_eq_of_forall fun x hx => by rw [htext beyond x hx], hexpanded]
      rfl
    · rw [scan_file_eq h] at hr
      obtain ⟨x, hx, rfl⟩ := mem_map.mp hr
      obtain ⟨hsize, hpos⟩ := hrange x hx
      obtain ⟨hlt, hline, htmpl⟩ := mem_template_lines hx
      have hlen : x.1 + x.2.length ≤ content.length := by
        have hle : (first_line (content.drop x.1)).length ≤ (content.drop x.1).length :=
          (takeWhile_sublist _).length_le
        rw [← hline, length_drop] at hle
        omega
      rw [hsize, copied_range]
      dsimp only
      rcases hgood x hx with hlead | ⟨-, hbound⟩
      · omega
      · omega

def smallDict : Bytes := bytes "ab\n@x%1%\n"

/-- The small dictionary is loaded line by line. -/
theorem small_dict_loads : LoadsByLine smallDict := by
  have hflat : flat_tokens smallDict = [bytes "ab"] := by decide_cbv
  have htmpl : template_lines smallDict = [(3, bytes "@x%1%")] := by decide_cbv
  refine (loads_by_line_iff smallDict ⟨by decide, ?_, ?_, ?_, ?_⟩).mpr fun x hx => .inl ?_
  · rw [hflat, htmpl]
    decide
  · rw [hflat]
    decide
  · rw [htmpl]
    decide
  · rw [hflat, htmpl]
    decide
  · rw [htmpl] at hx
    obtain rfl := mem_singleton.mp hx
    rfl

def indentedDict : Bytes := bytes "  @x\nyz\n"

/-- The expansion of the indented template has the beginning of the next line in it. -/
theorem indented_template_leaks :
    WithinLimits indentedDict ∧
      fuzz_dict_load indentedDict (fun _ => 0) = some [bytes "yz", bytes "x\ny"] ∧ ¬ LoadsByLine indentedDict := by
  have hflat : flat_tokens indentedDict = [bytes "yz"] := by decide_cbv
  have htmpl : template_lines indentedDict = [(0, bytes "  @x")] := by decide_cbv
  have hload : fuzz_dict_load indentedDict (fun _ => 0) = some [bytes "yz", bytes "x\ny"] := by decide_cbv
  refine ⟨⟨by decide, ?_, ?_, ?_, ?_⟩, hload, fun h => ?_⟩
  · rw [hflat, htmpl]
    decide
  · rw [hflat]
    decide
  · rw [htmpl]
    decide
  · rw [hflat, htmpl]
    decide
  · obtain ⟨expanded, hexpanded, htokens⟩ := h.tokens fun _ => 0
    rw [hflat, htmpl] at hexpanded
    obtain rfl : [bytes "x"] = expanded := some.inj hexpanded
    rw [hload, hflat] at htokens
    exact absurd htokens (by decide)

end Retrace.Core
