import Retrace.Json.Parson
import Retrace.CLib.Proofs.StrtodProofs

/-!
# Facts about the JSON parser

Two things are shown of `parse_value`. What it accepts it accepts again in front of any further text,
at any nesting level that leaves room for the text (`parse_value_append`). And an object that is
written member by member, as the daemon writes its records, parses to these members
(`parse_value_render`).
-/

namespace Retrace.Parson

open CLib List Option

variable {a r s : Bytes} {v : JsonValue} {c : UInt8}

theorem skip_whitespaces_cons (hc : isspace c = false) (s : Bytes) : skip_whitespaces (c :: s) = c :: s := by
  simp [skip_whitespaces, hc]

theorem skip_whitespaces_length (s : Bytes) : (skip_whitespaces s).length ≤ s.length :=
  (dropWhile_suffix _).length_le

theorem skip_whitespaces_append (h : skip_whitespaces s ≠ []) :
    skip_whitespaces (s ++ t) = skip_whitespaces s ++ t := by
  unfold skip_whitespaces at h ⊢
  rw [dropWhile_append, if_neg (by simpa using h)]

theorem skip_whitespaces_append_cons {t u : Bytes} (h : skip_whitespaces s = c :: u) :
    skip_whitespaces (s ++ t) = c :: (u ++ t) := by
  rw [skip_whitespaces_append (by simp [h]), h]
  rfl

theorem skip_whitespaces_append_of_nil (h : skip_whitespaces s = []) :
    skip_whitespaces (s ++ t) = skip_whitespaces t := by
  unfold skip_whitespaces at h ⊢
  rw [dropWhile_append, if_pos (by simpa using h)]

theorem skip_quotes_dquote (s : Bytes) : skip_quotes (dquote :: s) = some ([], s) := by
  rw [skip_quotes.eq_def]
  simp

theorem skip_quotes_backslash (d : UInt8) (s : Bytes) :
    skip_quotes (backslash :: d :: s) =
      (skip_quotes s).map fun (a, r) => (backslash :: d :: a, r) := by
  have h : ¬ backslash = dquote := by decide
  rw [skip_quotes.eq_def]
  simp [h]

theorem skip_quotes_cons (hq : c ≠ dquote) (hb : c ≠ backslash) (s : Bytes) :
    skip_quotes (c :: s) = (skip_quotes s).map fun (a, r) => (c :: a, r) := by
  rw [skip_quotes.eq_def]
  simp [hq, hb]

theorem skip_quotes_plain (ha : Plain a) : skip_quotes (a ++ dquote :: r) = some (a, r) := by
  induction a with
  | nil => exact skip_quotes_dquote r
  | cons c a ih =>
    obtain ⟨hc, ha⟩ := (plain_cons c a).mp ha
    rw [cons_append, skip_quotes_cons (plainChar_ne_dquote hc) (plainChar_ne_backslash hc), ih ha]
    rfl

theorem process_loop_cons (hb : c ≠ backslash) (hc : ¬ c < 32) (fuel : Nat) (s : Bytes) :
    process_loop (fuel + 1) (c :: s) = (process_loop fuel s).map (c :: ·) := by
  rw [process_loop.eq_def]
  simp [hb, hc]

theorem process_loop_plain (ha : Plain a) (hf : a.length ≤ fuel) : process_loop fuel a = some a := by
  induction a generalizing fuel with
  | nil => cases fuel <;> rfl
  | cons c a ih =>
    obtain ⟨hc, ha⟩ := (plain_cons c a).mp ha
    obtain ⟨fuel, rfl⟩ : ∃ k, fuel = k + 1 := ⟨fuel - 1, by simp at hf; omega⟩
    rw [process_loop_cons (plainChar_ne_backslash hc) (plainChar_ge hc), ih ha (by simpa using hf)]
    rfl

theorem get_quoted_string_plain (ha : Plain a) (r : Bytes) :
    get_quoted_string (dquote :: (a ++ dquote :: r)) = some (a, r) := by
  simp [get_quoted_string, skip_quotes_plain ha, process_string, process_loop_plain ha le_rfl, ha.cstr]

/-- The texts between two quotation marks. -/
inductive QuotedText : Bytes → Prop where
  | nil : QuotedText []
  | escape (d : UInt8) {a : Bytes} (h : QuotedText a) : QuotedText (backslash :: d :: a)
  | cons {c : UInt8} {a : Bytes} (hq : c ≠ dquote) (hb : c ≠ backslash) (h : QuotedText a) : QuotedText (c :: a)

theorem skip_quotes_iff : skip_quotes s = some (a, r) ↔ QuotedText a ∧ s = a ++ dquote :: r := by
  constructor
  · intro h
    induction s using skip_quotes.induct generalizing a with
    | case1 => simp [skip_quotes] at h
    | case2 s =>
      simp only [skip_quotes_dquote, some.injEq, Prod.mk.injEq] at h
      obtain ⟨rfl, rfl⟩ := h
      exact ⟨.nil, rfl⟩
    | case3 hq => simp [skip_quotes, hq] at h
    | case4 d s hq ih =>
      simp only [skip_quotes_backslash, map_eq_some_iff, Prod.mk.injEq, Prod.exists] at h
      obtain ⟨a', r', h', rfl, rfl⟩ := h
      exact ⟨.escape d (ih h').1, by rw [(ih h').2]; rfl⟩
    | case5 c s hq hb ih =>
      simp only [skip_quotes_cons hq hb, map_eq_some_iff, Prod.mk.injEq, Prod.exists] at h
      obtain ⟨a', r', h', rfl, rfl⟩ := h
      exact ⟨.cons hq hb (ih h').1, by rw [(ih h').2]; rfl⟩
  · rintro ⟨h, rfl⟩
    induction h with
    | nil => exact skip_quotes_dquote r
    | escape d _ ih => simp [skip_quotes_backslash, ih]
    | cons hq hb _ ih => simp [skip_quotes_cons hq hb, ih]

theorem skip_quotes_append (h : skip_quotes s = some (a, r)) (t : Bytes) :
    r.length ≤ s.length ∧ skip_quotes (s ++ t) = some (a, r ++ t) := by
  obtain ⟨htext, rfl⟩ := skip_quotes_iff.mp h
  exact ⟨by simp; omega, skip_quotes_iff.mpr ⟨htext, by simp⟩⟩

theorem get_quoted_string_append (h : get_quoted_string s = some (a, r)) :
    r.length ≤ s.length ∧ get_quoted_string (s ++ t) = some (a, r ++ t) := by
  cases s with
  | nil => simp [get_quoted_string] at h
  | cons c s =>
    simp only [get_quoted_string] at h
    split_ifs at h with hc
    simp only [bind_eq_bind, bind_eq_some_iff, some.injEq, Prod.mk.injEq, Prod.exists] at h
    obtain ⟨text, rest, hq, str, hp, rfl, rfl⟩ := h
    obtain ⟨hlen, happ⟩ := skip_quotes_append hq t
    exact ⟨by simp; omega, by simp [get_quoted_string, hc, happ, hp]⟩

/-! ## Members and items

One round of the loops of `parse_object_value` and `parse_array_value`. -/

section

variable {value value' : Bytes → Option (JsonValue × Bytes)}

theorem parse_members_succ : parse_members value (fuel + 1) s acc = some (o, r) ↔
      ∃ name s1 s2 v s3 d s4, get_quoted_string s = some (name, s1) ∧
        skip_whitespaces s1 = colon :: s2 ∧ value s2 = some (v, s3) ∧ acc.lookup name = none ∧
        skip_whitespaces s3 = d :: s4 ∧ ((d = comma ∧
            parse_members value fuel (skip_whitespaces s4) (acc ++ [(name, v)]) = some (o, r)) ∨
          (d = rbrace ∧ o = acc ++ [(name, v)] ∧ r = s4)) := by
  constructor
  · intro h
    simp only [parse_members, bind_eq_bind, bind_eq_some_iff, Prod.exists] at h
    obtain ⟨name, s1, hname, h⟩ := h
    split at h
    · simp at h
    · rename_i c s2 hs1
      split_ifs at h with hc hl
      · simp at h
      subst hc
      simp only [bind_eq_some_iff, Prod.exists] at h
      obtain ⟨v, s3, hv, h⟩ := h
      split at h
      · simp at h
      · rename_i d s4 hs3
        refine ⟨name, s1, s2, v, s3, d, s4, hname, hs1, hv, not_isSome_iff_eq_none.mp hl, hs3, ?_⟩
        split_ifs at h with hd hd'
        · exact .inl ⟨hd, h⟩
        · simp only [some.injEq, Prod.mk.injEq] at h
          exact .inr ⟨hd', h.1.symm, h.2.symm⟩
  · rintro ⟨name, s1, s2, v, s3, d, s4, hname, hs1, hv, hl, hs3, ⟨rfl, h⟩ | ⟨rfl, rfl, rfl⟩⟩
    · simpa [parse_members, hname, hs1, hv, hl, hs3] using h
    · simp [parse_members, hname, hs1, hv, hl, hs3, comma, rbrace]

theorem parse_members_nil : parse_members value fuel [] acc = none := by
  cases fuel <;> simp [parse_members, get_quoted_string]

theorem parse_items_succ {acc a : List JsonValue} : parse_items value (fuel + 1) s acc = some (a, r) ↔
      ∃ v s1 d s2, value s = some (v, s1) ∧ skip_whitespaces s1 = d :: s2 ∧
        ((d = comma ∧ parse_items value fuel (skip_whitespaces s2) (acc ++ [v]) = some (a, r)) ∨
          (d = rbracket ∧ a = acc ++ [v] ∧ r = s2)) := by
  constructor
  · intro h
    simp only [parse_items, bind_eq_bind, bind_eq_some_iff, Prod.exists] at h
    obtain ⟨v, s1, hv, h⟩ := h
    split at h
    · simp at h
    · rename_i d s2 hs1
      refine ⟨v, s1, d, s2, hv, hs1, ?_⟩
      split_ifs at h with hd hd'
      · exact .inl ⟨hd, h⟩
      · simp only [some.injEq, Prod.mk.injEq] at h
        exact .inr ⟨hd', h.1.symm, h.2.symm⟩
  · rintro ⟨v, s1, d, s2, hv, hs1, ⟨rfl, h⟩ | ⟨rfl, rfl, rfl⟩⟩
    · simpa [parse_items, hv, hs1] using h
    · simp [parse_items, hv, hs1, comma, rbracket]

theorem parse_items_nil (hnil : value [] = none) : parse_items value fuel [] acc = none := by
  cases fuel <;> simp [parse_items, hnil]

/-- Where `value` succeeds on at most `n` bytes, `value'` gives the same in front of `t`. -/
def ExtendsTo (t : Bytes) (n : Nat) (value value' : Bytes → Option (JsonValue × Bytes)) : Prop :=
  ∀ s v r, s.length ≤ n → value s = some (v, r) →
    r.length ≤ s.length ∧ value' (s ++ t) = some (v, r ++ t)

theorem parse_members_append (hext : ExtendsTo t n value value') (hfuel : fuel ≤ fuel') (hn : s.length ≤ n)
    (h : parse_members value fuel s acc = some (o, r)) :
    r.length ≤ s.length ∧ parse_members value' fuel' (s ++ t) acc = some (o, r ++ t) := by
  induction fuel generalizing fuel' s acc with
  | zero => simp [parse_members] at h
  | succ fuel ih =>
    obtain ⟨fuel', rfl⟩ : ∃ k, fuel' = k + 1 := ⟨fuel' - 1, by omega⟩
    obtain ⟨name, s1, s2, v, s3, d, s4, hname, hs1, hv, hl, hs3, hd⟩ := parse_members_succ.mp h
    obtain ⟨hlen1, happ1⟩ := get_quoted_string_append hname
    have hlen2 := skip_whitespaces_length s1
    have hlen4 := skip_whitespaces_length s3
    have hlen5 := skip_whitespaces_length s4
    simp only [hs1, hs3, length_cons] at hlen2 hlen4
    obtain ⟨hlen3, happ3⟩ := hext s2 v s3 (by omega) hv
    rcases hd with ⟨rfl, hd⟩ | ⟨rfl, rfl, rfl⟩
    · obtain ⟨hlen, happ⟩ := ih (show fuel ≤ fuel' by omega) (by omega) hd
      have hne : skip_whitespaces s4 ≠ [] := by
        intro h0
        rw [h0, parse_members_nil] at hd
        simp at hd
      refine ⟨by omega, parse_members_succ.mpr ⟨name, s1 ++ t, s2 ++ t, v, s3 ++ t, comma, s4 ++ t,
        happ1, skip_whitespaces_append_cons hs1, happ3, hl, skip_whitespaces_append_cons hs3,
        .inl ⟨rfl, ?_⟩⟩⟩
      rw [skip_whitespaces_append hne]
      exact happ
    · exact ⟨by omega, parse_members_succ.mpr ⟨name, s1 ++ t, s2 ++ t, v, s3 ++ t, rbrace, r ++ t,
        happ1, skip_whitespaces_append_cons hs1, happ3, hl, skip_whitespaces_append_cons hs3,
        .inr ⟨rfl, rfl, rfl⟩⟩⟩

theorem parse_items_append (hext : ExtendsTo t n value value') (hnil : value [] = none)
    (hfuel : fuel ≤ fuel') {acc a : List JsonValue}
    (hn : s.length ≤ n) (h : parse_items value fuel s acc = some (a, r)) :
    r.length ≤ s.length ∧ parse_items value' fuel' (s ++ t) acc = some (a, r ++ t) := by
  induction fuel generalizing fuel' s acc with
  | zero => simp [parse_items] at h
  | succ fuel ih =>
    obtain ⟨fuel', rfl⟩ : ∃ k, fuel' = k + 1 := ⟨fuel' - 1, by omega⟩
    obtain ⟨v, s1, d, s2, hv, hs1, hd⟩ := parse_items_succ.mp h
    have hlen2 := skip_whitespaces_length s1
    have hlen3 := skip_whitespaces_length s2
    simp only [hs1, length_cons] at hlen2
    obtain ⟨hlen1, happ1⟩ := hext s v s1 hn hv
    rcases hd with ⟨rfl, hd⟩ | ⟨rfl, rfl, rfl⟩
    · obtain ⟨hlen, happ⟩ := ih (show fuel ≤ fuel' by omega) (by omega) hd
      have hne : skip_whitespaces s2 ≠ [] := by
        intro h0
        rw [h0, parse_items_nil hnil] at hd
        simp at hd
      refine ⟨by omega, parse_items_succ.mpr ⟨v, s1 ++ t, comma, s2 ++ t, happ1,
        skip_whitespaces_append_cons hs1, .inl ⟨rfl, ?_⟩⟩⟩
      rw [skip_whitespaces_append hne]
      exact happ
    · exact ⟨by omega, parse_items_succ.mpr ⟨v, s1 ++ t, rbracket, r ++ t, happ1,
        skip_whitespaces_append_cons hs1, .inr ⟨rfl, rfl, rfl⟩⟩⟩

theorem parse_object_value_append (hext : ExtendsTo t n value value')
    (hn : s.length ≤ n) (h : parse_object_value value s = some (v, r)) :
    r.length ≤ s.length ∧ parse_object_value value' (s ++ t) = some (v, r ++ t) := by
  have hlen := skip_whitespaces_length s
  unfold parse_object_value at h
  split at h
  · simp at h
  · rename_i c u hs
    rw [parse_object_value, skip_whitespaces_append_cons hs]
    simp only [hs, length_cons] at hlen
    split_ifs at h with hc
    · simp only [some.injEq, Prod.mk.injEq] at h
      obtain ⟨rfl, rfl⟩ := h
      exact ⟨by omega, by simp [hc]⟩
    · simp only [map_eq_some_iff, Prod.mk.injEq, Prod.exists] at h
      obtain ⟨o, r', hm, rfl, rfl⟩ := h
      have hfuel : (c :: u).length ≤ (c :: (u ++ t)).length := by simp
      obtain ⟨hlen', happ⟩ := parse_members_append hext hfuel (by simp; omega) hm
      rw [cons_append] at happ
      refine ⟨by simp at hlen'; omega, ?_⟩
      simp only [if_neg hc, happ, map_some]

theorem parse_array_value_append (hext : ExtendsTo t n value value') (hnil : value [] = none)
    (hn : s.length ≤ n) (h : parse_array_value value s = some (v, r)) :
    r.length ≤ s.length ∧ parse_array_value value' (s ++ t) = some (v, r ++ t) := by
  have hlen := skip_whitespaces_length s
  unfold parse_array_value at h
  split at h
  · simp at h
  · rename_i c u hs
    rw [parse_array_value, skip_whitespaces_append_cons hs]
    simp only [hs, length_cons] at hlen
    split_ifs at h with hc
    · simp only [some.injEq, Prod.mk.injEq] at h
      obtain ⟨rfl, rfl⟩ := h
      exact ⟨by omega, by simp [hc]⟩
    · simp only [map_eq_some_iff, Prod.mk.injEq, Prod.exists] at h
      obtain ⟨a, r', hm, rfl, rfl⟩ := h
      have hfuel : (c :: u).length ≤ (c :: (u ++ t)).length := by simp
      obtain ⟨hlen', happ⟩ := parse_items_append hext hnil hfuel (by simp; omega) hm
      rw [cons_append] at happ
      refine ⟨by simp at hlen'; omega, ?_⟩
      simp only [if_neg hc, happ, map_some]

end

theorem parse_boolean_value_append (h : parse_boolean_value s = some (v, r)) :
    r.length ≤ s.length ∧ parse_boolean_value (s ++ t) = some (v, r ++ t) := by
  simp only [parse_boolean_value, isPrefixOf_iff_prefix] at h ⊢
  split_ifs at h with h1 h2
  · simp only [some.injEq, Prod.mk.injEq] at h
    obtain ⟨rfl, rfl⟩ := h
    have hlen : 4 ≤ s.length := h1.length_le
    refine ⟨by simp, ?_⟩
    rw [if_pos (h1.trans (prefix_append s t)), drop_append_of_le_length hlen]
  · simp only [some.injEq, Prod.mk.injEq] at h
    obtain ⟨rfl, rfl⟩ := h
    have hlen : 5 ≤ s.length := h2.length_le
    have h2' := h2.trans (prefix_append s t)
    refine ⟨by simp, ?_⟩
    rw [if_neg, if_pos h2', drop_append_of_le_length hlen]
    intro h1'
    obtain ⟨u, hu⟩ := h1'
    obtain ⟨u', hu'⟩ := h2'
    rw [← hu'] at hu
    exact absurd (congrArg List.head? hu) (by simp [bytes])

theorem parse_null_value_append (h : parse_null_value s = some (v, r)) :
    r.length ≤ s.length ∧ parse_null_value (s ++ t) = some (v, r ++ t) := by
  simp only [parse_null_value, isPrefixOf_iff_prefix] at h ⊢
  split_ifs at h with h1
  simp only [some.injEq, Prod.mk.injEq] at h
  obtain ⟨rfl, rfl⟩ := h
  have hlen : 4 ≤ s.length := h1.length_le
  refine ⟨by simp, ?_⟩
  rw [if_pos (h1.trans (prefix_append s t)), drop_append_of_le_length hlen]

theorem is_decimal_append (hn : n ≤ s.length) (t : Bytes) : is_decimal (s ++ t) n = is_decimal s n := by
  have hget : ∀ i, i < n → (s ++ t)[i]? = s[i]? := fun i hi => by
    rw [getElem?_append_left (by omega)]
  have htake : (s ++ t).take n = s.take n := take_append_of_le_length hn
  simp only [is_decimal, head?_eq_getElem?, htake]
  by_cases h2 : 2 < n
  · simp [hget 0 (by omega), hget 1 (by omega), hget 2 (by omega)]
  · by_cases h1 : 1 < n
    · simp [hget 0 (by omega), hget 1 (by omega), h2]
    · simp [h1, h2]

theorem parse_number_value_append (hc : isspace c = false)
    (ht : NumberEnds t) (h : parse_number_value (c :: s) = some (v, r)) :
    r.length ≤ (c :: s).length ∧ parse_number_value (c :: s ++ t) = some (v, r ++ t) := by
  have hle := strtod_consumed_le hc s
  simp only [parse_number_value] at h ⊢
  rw [strtod_append hc s ht, is_decimal_append hle]
  split_ifs at h with hg
  simp only [map_eq_some_iff, Prod.mk.injEq] at h
  obtain ⟨d, hd, rfl, rfl⟩ := h
  refine ⟨by simp, ?_⟩
  rw [if_neg hg, hd, map_some, drop_append_of_le_length hle]

theorem parse_value_nil : parse_value depth [] = none := by
  cases depth <;> rfl

/-- What the parser accepts it accepts in front of any text that does not go on with a number, at
any nesting level that leaves room for what was accepted. -/
theorem parse_value_append (ht : NumberEnds t) (depth depth' : Nat) :
    ExtendsTo t depth' (parse_value depth) (parse_value depth') := by
  induction depth generalizing depth' with
  | zero => exact fun s v r _ h => by simp [parse_value] at h
  | succ depth ih =>
    intro s v r hlen h
    simp only [parse_value] at h
    cases hs : skip_whitespaces s with
    | nil => simp [hs] at h
    | cons c u =>
      have hu := skip_whitespaces_length s
      simp only [hs, length_cons] at hu h
      obtain ⟨d', rfl⟩ : ∃ k, depth' = k + 1 := ⟨depth' - 1, by omega⟩
      have hrec := ih d'
      simp only [parse_value, skip_whitespaces_append_cons hs]
      split_ifs at h ⊢ with hc1 hc2 hc3 hc4 hc5 hc6
      · obtain ⟨h1, h2⟩ := parse_object_value_append hrec (by omega) h
        exact ⟨by omega, h2⟩
      · obtain ⟨h1, h2⟩ := parse_array_value_append hrec parse_value_nil (by omega) h
        exact ⟨by omega, h2⟩
      · simp only [map_eq_some_iff, Prod.mk.injEq, Prod.exists] at h
        obtain ⟨x, r', hq, rfl, rfl⟩ := h
        obtain ⟨h1, h2⟩ := get_quoted_string_append hq
        rw [cons_append] at h2
        exact ⟨by simp at h1; omega, by rw [h2]; rfl⟩
      · obtain ⟨h1, h2⟩ := parse_boolean_value_append h
        exact ⟨by simp at h1; omega, h2⟩
      · have hsp : isspace c = false := by
          rcases hc5 with rfl | hd
          · rfl
          · exact isspace_of_isdigit hd
        obtain ⟨h1, h2⟩ := parse_number_value_append hsp ht h
        exact ⟨by simp at h1; omega, h2⟩
      · obtain ⟨h1, h2⟩ := parse_null_value_append h
        exact ⟨by simp at h1; omega, h2⟩

end Retrace.Parson
