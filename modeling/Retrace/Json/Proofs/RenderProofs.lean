import Retrace.Json.Render
import Retrace.Json.Proofs.ParsonProofs

/-!
# Objects that are written parse

Quoted strings, numbers and object texts are read back as values of members, and an object that is
written member by member is read back member by member.
-/

namespace Retrace.Parson

open CLib List

theorem numberEnds_of_separator (hc : c = comma ∨ c = rbrace) (t : Bytes) : NumberEnds (c :: t) := by
  intro d hd
  obtain rfl : c = d := by simpa using hd
  rcases hc with rfl | rfl <;> decide

theorem skip_whitespaces_separator (hc : c = comma ∨ c = rbrace) : skip_whitespaces (c :: t) = c :: t := by
  refine skip_whitespaces_cons ?_ t
  rcases hc with rfl | rfl <;> decide

theorem reads_quoted (ha : Plain a) (depth : Nat) : Reads (parse_value (depth + 1)) (quoted a) (.string a) := by
  intro c t hc
  refine ⟨c :: t, ?_, skip_whitespaces_separator hc⟩
  have hq := get_quoted_string_plain ha (c :: t)
  have hsp : skip_whitespaces (dquote :: (a ++ dquote :: c :: t)) = dquote :: (a ++ dquote :: c :: t) :=
    skip_whitespaces_cons (by decide) _
  have h1 : ¬ dquote = lbrace := by decide
  have h2 : ¬ dquote = lbracket := by decide
  simp [quoted, parse_value, hsp, h1, h2, hq]

theorem is_decimal_fmtInt : is_decimal (fmtInt n) (fmtInt n).length = true := by
  have hx : ∀ c ∈ fmtNat n.natAbs, c ≠ 120 ∧ c ≠ 88 := fun c hc =>
    ⟨ne_of_isdigit (isdigit_of_mem_fmtNat hc) (by decide),
      ne_of_isdigit (isdigit_of_mem_fmtNat hc) (by decide)⟩
  unfold fmtInt
  split_ifs with h
  · have h48 : (fmtNat n.natAbs)[0]? ≠ some 48 := by
      rw [← head?_eq_getElem?]
      exact head_fmtNat_ne (by omega)
    simpa [is_decimal, h48] using hx
  · have h45 : (fmtNat n.natAbs).head? ≠ some 45 := by
      intro h0
      exact absurd (isdigit_of_mem_fmtNat (mem_of_mem_head? h0)) (by decide)
    by_cases h0 : n.natAbs = 0
    · rw [h0]
      decide
    · simpa [is_decimal, h45, head_fmtNat_ne h0] using hx

theorem parse_number_value_fmtInt (hn : n.natAbs < 2 ^ 64) (ht : NumberEnds t) :
    parse_number_value (fmtInt n ++ t) = some (.number (roundDouble n), t) := by
  simp only [parse_number_value, strtod_fmtInt hn ht, is_decimal_append le_rfl, is_decimal_fmtInt]
  simp

theorem reads_fmtInt (hn : n.natAbs < 2 ^ 64) :
    ∀ depth, Reads (parse_value (depth + 1)) (fmtInt n) (.number (roundDouble n)) := by
  refine fun depth c t hc => ⟨c :: t, ?_, skip_whitespaces_separator hc⟩
  have hq := parse_number_value_fmtInt hn (numberEnds_of_separator hc t)
  obtain ⟨d, s, hs, hd, hsp⟩ := exists_cons_fmtInt n
  -- None of the other kinds of value starts with a digit or a minus.
  have hother : d ≠ lbrace ∧ d ≠ lbracket ∧ d ≠ dquote ∧ ¬ (d = 102 ∨ d = 116) := by
    rcases hd with rfl | hd
    · decide
    · exact ⟨ne_of_isdigit hd (by decide), ne_of_isdigit hd (by decide), ne_of_isdigit hd (by decide), not_or.mpr
          ⟨ne_of_isdigit hd (by decide), ne_of_isdigit hd (by decide)⟩⟩
  rw [hs, cons_append] at hq ⊢
  rw [parse_value, skip_whitespaces_cons hsp]
  simp only [if_neg hother.1, if_neg hother.2.1, if_neg hother.2.2.1, if_neg hother.2.2.2, if_pos hd]
  exact hq

theorem reads_fmtNat (hn : n < 2 ^ 64) :
    ∀ depth, Reads (parse_value (depth + 1)) (fmtNat n) (.number (roundDouble n)) := by
  have hfmt : fmtInt n = fmtNat n := by simp [fmtInt]
  rw [← hfmt]
  exact_mod_cast reads_fmtInt (n := n) (by simpa using hn)

theorem ObjectText.reads (hs : ObjectText s) :
    ∃ o, ∀ depth, s.length ≤ depth → Reads (parse_value depth) s (.object o) := by
  obtain ⟨o, r, hp, hr⟩ := hs
  refine ⟨o, fun depth hd c t hc => ⟨r ++ c :: t, ?_, ?_⟩⟩
  · exact (parse_value_append (numberEnds_of_separator hc t) _ depth s _ r hd hp).2
  · rw [skip_whitespaces_append_of_nil hr, skip_whitespaces_separator hc]

theorem length_le_renderMembers (ms : List (Bytes × Bytes)) : ms.length ≤ (renderMembers ms).length := by
  induction ms using renderMembers.induct with
  | case1 => simp
  | case2 m => simp [renderMembers, renderMember, quoted]
  | case3 m ms hne ih =>
    rw [renderMembers]
    · simp
      omega
    · exact hne

theorem renderMembers_cons_cons :
    renderMembers (m :: m' :: ms) = renderMember m ++ comma :: renderMembers (m' :: ms) := rfl

theorem renderMembers_cons : ∃ s, renderMembers (m :: ms) = dquote :: s := by
  cases ms <;> exact ⟨_, rfl⟩

theorem inline_quoted (hs : Inline s) : Inline (quoted s) := by
  simp [quoted, hs, show dquote ≠ newline ∧ dquote ≠ 0 by decide]

theorem inline_renderMember (h1 : Inline m.1) (h2 : Inline m.2) : Inline (renderMember m) := by
  simp [renderMember, inline_quoted h1, h2, show colon ≠ newline ∧ colon ≠ 0 by decide]

theorem inline_renderObject (hms : ∀ m ∈ ms, Inline m.1 ∧ Inline m.2) : Inline (renderObject ms) := by
  have h : Inline (renderMembers ms) := by
    induction ms using renderMembers.induct with
    | case1 => simp [renderMembers]
    | case2 m => exact inline_renderMember (hms m (by simp)).1 (hms m (by simp)).2
    | case3 m ms hne ih =>
      have hm := hms m mem_cons_self
      rw [renderMembers]
      · simp [inline_renderMember hm.1 hm.2, ih fun x hx => hms x (mem_cons_of_mem _ hx),
          show comma ≠ newline ∧ comma ≠ 0 by decide]
      · exact hne
  simp [renderObject, h, show lbrace ≠ newline ∧ lbrace ≠ 0 by decide,
    show rbrace ≠ newline ∧ rbrace ≠ 0 by decide]

theorem readMember {v : Bytes × JsonValue} (hn : m.1 = v.1) (hp : Plain m.1)
    (hr : Reads value m.2 v.2) (hc : c = comma ∨ c = rbrace) (t : Bytes) :
    ∃ s1 s2 s3, get_quoted_string (renderMember m ++ c :: t) = some (v.1, s1) ∧
      skip_whitespaces s1 = colon :: s2 ∧ value s2 = some (v.2, s3) ∧ skip_whitespaces s3 = c :: t := by
  obtain ⟨s3, hv, hs3⟩ := hr c t hc
  refine ⟨colon :: (m.2 ++ c :: t), m.2 ++ c :: t, s3, ?_, skip_whitespaces_cons (by decide) _, hv, hs3⟩
  rw [← hn, ← get_quoted_string_plain hp]
  simp [renderMember, quoted]

theorem parse_members_render
    (hread : MembersRead value ms vs) (hne : ms ≠ []) (hnodup : ((acc ++ vs).map Prod.fst).Nodup)
    (hfuel : ms.length ≤ fuel) :
    parse_members value fuel (renderMembers ms ++ rbrace :: t) acc = some (acc ++ vs, t) := by
  induction hread generalizing acc fuel with
  | nil => exact absurd rfl hne
  | @cons m v ms vs hm hms ih =>
    obtain ⟨fuel, rfl⟩ : ∃ k, fuel = k + 1 := ⟨fuel - 1, by simp at hfuel; omega⟩
    have hfresh : acc.lookup v.1 = none := by
      rw [lookup_eq_none_iff]
      intro p hp
      rw [map_append, nodup_append] at hnodup
      have := hnodup.2.2 p.1 (mem_map_of_mem hp) v.1 (by simp)
      simpa using this.symm
    rw [parse_members_succ]
    cases hms with
    | nil =>
      obtain ⟨s1, s2, s3, h1, h2, h3, h4⟩ := readMember hm.1 hm.2.1 hm.2.2 (.inr rfl) t
      exact ⟨v.1, s1, s2, v.2, s3, rbrace, t, h1, h2, h3, hfresh, h4, .inr ⟨rfl, rfl, rfl⟩⟩
    | @cons m' v' ms vs hm' hms =>
      obtain ⟨s1, s2, s3, h1, h2, h3, h4⟩ := readMember hm.1 hm.2.1 hm.2.2 (.inl rfl)
        (renderMembers (m' :: ms) ++ rbrace :: t)
      refine ⟨v.1, s1, s2, v.2, s3, comma, _, ?_, h2, h3, hfresh, h4, .inl ⟨rfl, ?_⟩⟩
      · rw [renderMembers_cons_cons, ← h1]
        simp
      · obtain ⟨s, hs⟩ := renderMembers_cons
        have hskip : skip_whitespaces (renderMembers (m' :: ms) ++ rbrace :: t) =
            renderMembers (m' :: ms) ++ rbrace :: t := by
          rw [hs]
          exact skip_whitespaces_cons (by decide) _
        rw [hskip, ih (by simp) (by simpa using hnodup) (by simpa using hfuel)]
        simp

theorem parse_object_value_render
    (hread : MembersRead value ms vs) (hne : ms ≠ []) (hnodup : (vs.map Prod.fst).Nodup) (t : Bytes) :
    parse_object_value value (renderMembers ms ++ rbrace :: t) = some (.object vs, t) := by
  have hlen := length_le_renderMembers ms
  have hloop : ∀ fuel, ms.length ≤ fuel →
      parse_members value fuel (renderMembers ms ++ rbrace :: t) [] = some (vs, t) := fun fuel hf => by
    have hnodup' : (([] ++ vs).map Prod.fst).Nodup := hnodup
    simpa using parse_members_render hread hne hnodup' hf
  obtain ⟨m, ms, rfl⟩ := exists_cons_of_ne_nil hne
  obtain ⟨s, hs⟩ := renderMembers_cons
  have hskip : skip_whitespaces (dquote :: (s ++ rbrace :: t)) = dquote :: (s ++ rbrace :: t) :=
    skip_whitespaces_cons (by decide) _
  have hd : ¬ dquote = rbrace := by decide
  rw [hs, cons_append] at hloop ⊢
  simp only [parse_object_value, hskip, if_neg hd]
  rw [hloop _ (by rw [hs] at hlen; simp at hlen ⊢; omega)]
  rfl

theorem parse_value_render (hread : MembersRead (parse_value depth) ms vs) (hne : ms ≠ [])
    (hnodup : (vs.map Prod.fst).Nodup) (t : Bytes) :
    parse_value (depth + 1) (renderObject ms ++ t) = some (.object vs, t) := by
  have h := parse_object_value_render hread hne hnodup t
  have hskip : skip_whitespaces (lbrace :: (renderMembers ms ++ rbrace :: t)) =
      lbrace :: (renderMembers ms ++ rbrace :: t) := skip_whitespaces_cons (by decide) _
  simp [renderObject, parse_value, hskip, h]

theorem json_parse_string_render (hread : MembersRead (parse_value MAX_NESTING) ms vs) (hne : ms ≠ [])
    (hnodup : (vs.map Prod.fst).Nodup) (t : Bytes) :
    json_parse_string (renderObject ms ++ t) = some (.object vs) := by
  have hbom : dropBom (renderObject ms ++ t) = renderObject ms ++ t := by
    rw [renderObject, cons_append, dropBom.eq_def]
    split
    · rename_i a b c s h
      have ha : lbrace = a := (List.cons.inj h).1
      rw [if_neg (by rintro ⟨rfl, -⟩; exact absurd ha (by decide)), h]
    · rfl
  rw [json_parse_string, hbom, parse_value_render hread hne hnodup]
  rfl

theorem exists_membersRead (hms : ∀ m ∈ ms, Plain m.1 ∧ ∃ v, Reads value m.2 v) :
    ∃ vs, MembersRead value ms vs ∧ vs.map Prod.fst = ms.map Prod.fst := by
  induction ms with
  | nil => exact ⟨[], .nil, rfl⟩
  | cons m ms ih =>
    obtain ⟨vs, hvs, hkeys⟩ := ih fun x hx => hms x (mem_cons_of_mem _ hx)
    obtain ⟨hp, v, hv⟩ := hms m mem_cons_self
    exact ⟨(m.1, v) :: vs, .cons ⟨rfl, hp, hv⟩ hvs, by simp [hkeys]⟩

theorem objectText_render (hne : ms ≠ []) (hnodup : (ms.map Prod.fst).Nodup)
    (hms : ∀ m ∈ ms, Plain m.1 ∧ ∃ v, Reads (parse_value MAX_NESTING) m.2 v) : ObjectText (renderObject ms) := by
  obtain ⟨vs, hvs, hkeys⟩ := exists_membersRead hms
  have h := parse_value_render hvs hne (by rw [hkeys]; exact hnodup) []
  rw [append_nil] at h
  exact ⟨vs, [], h, rfl⟩

theorem ScalarText.reads (hs : ScalarText s) (depth : Nat) : ∃ v, Reads (parse_value (depth + 1)) s v := by
  cases hs with
  | string hs => exact ⟨_, reads_quoted hs depth⟩
  | int hn => exact ⟨_, reads_fmtInt hn depth⟩
  | nat hn => exact ⟨_, reads_fmtNat hn depth⟩

theorem ScalarText.inline (hs : ScalarText s) : Inline s := by
  cases hs with
  | string hs => exact inline_quoted hs.inline
  | int _ => exact (fmtInt_plain _).inline
  | nat _ => exact (fmtNat_plain _).inline

theorem objectText_of_scalars (hne : ms ≠ [])
    (hnodup : (ms.map Prod.fst).Nodup) (hms : ∀ m ∈ ms, Plain m.1 ∧ ScalarText m.2) :
    ObjectText (renderObject ms) ∧ Inline (renderObject ms) :=
  ⟨objectText_render hne hnodup fun m hm => ⟨(hms m hm).1, (hms m hm).2.reads 2047⟩,
    inline_renderObject fun m hm => ⟨(hms m hm).1.inline, (hms m hm).2.inline⟩⟩

end Retrace.Parson
