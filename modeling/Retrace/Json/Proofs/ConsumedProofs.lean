import Retrace.Json.Proofs.ParsonProofs
import Retrace.CLib.Proofs.DoubleProofs

/-!
# What the parser consumes

A value that is parsed was written in the text that is gone then. `ValueText` says how, down to the items and
members, for which any relation `E` can stand that the parser keeps one level below. A fact about texts and
values follows by induction on the depth, with one case for each kind of value.
-/

namespace Retrace.Parson

open CLib List Option

variable {r s t w : Bytes}

def Blanks (w : Bytes) : Prop := ∀ c ∈ w, isspace c = true

theorem skip_whitespaces_split (s : Bytes) : ∃ w, Blanks w ∧ s = w ++ skip_whitespaces s :=
  ⟨s.takeWhile isspace, fun _ hc => mem_takeWhile_imp hc, takeWhile_append_dropWhile.symm⟩

inductive Rows {α : Type} (E : Bytes → α → Prop) : Bytes → List α → Prop where
  | nil {w : Bytes} (hw : Blanks w) : Rows E w []
  | single {w t w' : Bytes} {x : α} (hw : Blanks w) (h : E t x) (hw' : Blanks w') : Rows E (w ++ (t ++ w')) [x]
  | cons {w t w' u : Bytes} {x : α} {xs : List α} (hw : Blanks w) (h : E t x) (hw' : Blanks w')
      (hxs : Rows E u xs) :
      Rows E (w ++ (t ++ (w' ++ comma :: u))) (x :: xs)

theorem Rows.blanks (h : Rows E t xs) (hw : Blanks w) : Rows E (w ++ t) xs := by
  have happ : ∀ {w'}, Blanks w' → Blanks (w ++ w') := fun hw' c hc =>
    (mem_append.mp hc).elim (hw c) (hw' c)
  cases h with
  | nil hw' => exact .nil (happ hw')
  | single hw' h hw'' =>
    rw [← append_assoc]
    exact .single (happ hw') h hw''
  | cons hw' h hw'' hxs =>
    rw [← append_assoc]
    exact .cons (happ hw') h hw'' hxs

theorem Rows.forall {Q : α → Prop} (h : Rows E t xs) (hQ : ∀ t x, E t x → Q x) : ∀ x ∈ xs, Q x := by
  induction h with
  | nil => simp
  | single _ h _ => simpa using hQ _ _ h
  | cons _ h _ _ ih => simpa using ⟨hQ _ _ h, ih⟩

def Quoted (text : Bytes) : Prop := ∃ r, skip_quotes (text ++ dquote :: r) = some (text, r)

def MemberText (E : Bytes → JsonValue → Prop) (t : Bytes) (m : Bytes × JsonValue) : Prop :=
  ∃ text w u, Quoted text ∧ 0 ∉ m.1 ∧ Blanks w ∧ E u m.2 ∧ t = dquote :: (text ++ dquote :: (w ++ colon :: u))

inductive ValueText (E : Bytes → JsonValue → Prop) : Bytes → JsonValue → Prop where
  | null : ValueText E (bytes "null") .null
  | boolean (b : Bool) : ValueText E (if b then bytes "true" else bytes "false") (.boolean b)
  | number {t : Bytes} {q : ℚ} (ht : ∀ c ∈ t, numChar c = true) (hq : IsDouble q) : ValueText E t (.number q)
  | string {text str : Bytes} (htext : Quoted text) (hstr : 0 ∉ str) :
      ValueText E (dquote :: (text ++ [dquote])) (.string str)
  | array {t : Bytes} {vs : List JsonValue} (h : Rows E t vs) : ValueText E
      (lbracket :: (t ++ [rbracket])) (.array vs)
  | object {t : Bytes} {ms : JsonObject} (h : Rows (MemberText E) t ms) (hnames : (ms.map Prod.fst).Nodup) :
      ValueText E (lbrace :: (t ++ [rbrace])) (.object ms)

theorem get_quoted_string_split (h : get_quoted_string s = some (str, r)) :
    ∃ text, Quoted text ∧ 0 ∉ str ∧ s = dquote :: (text ++ dquote :: r) := by
  cases s with
  | nil => simp [get_quoted_string] at h
  | cons c s =>
    simp only [get_quoted_string] at h
    split_ifs at h with hc
    simp only [bind_eq_bind, bind_eq_some_iff, Prod.exists] at h
    obtain ⟨text, rest, hskip, str', hstr, heq⟩ := h
    cases heq
    simp only [process_string, map_eq_some_iff] at hstr
    obtain ⟨x, -, rfl⟩ := hstr
    have hsplit := (skip_quotes_iff.mp hskip).2
    exact ⟨text, ⟨r, hsplit ▸ hskip⟩, not_mem_zero_cstr x, by rw [hc, hsplit]⟩

section

variable {value : Bytes → Option (JsonValue × Bytes)} {E : Bytes → JsonValue → Prop}
  (hvalue : ∀ s v r, value s = some (v, r) → ∃ t, s = t ++ r ∧ E t v)
include hvalue

theorem parse_items_rows (h : parse_items value fuel s acc = some (a, r)) :
    ∃ t vs, s = t ++ rbracket :: r ∧ a = acc ++ vs ∧ Rows E t vs := by
  induction fuel generalizing s acc with
  | zero => simp [parse_items] at h
  | succ fuel ih =>
    obtain ⟨v, s1, d, s2, hv, hs1, hrest⟩ := parse_items_succ.mp h
    obtain ⟨t, rfl, ht⟩ := hvalue s v s1 hv
    obtain ⟨w, hw, hs1'⟩ := skip_whitespaces_split s1
    rw [hs1] at hs1'
    rcases hrest with ⟨rfl, hrest⟩ | ⟨rfl, rfl, rfl⟩
    · obtain ⟨w', hw', hs2⟩ := skip_whitespaces_split s2
      obtain ⟨u, vs, hu, rfl, hrows⟩ := ih hrest
      refine ⟨[] ++ (t ++ (w ++ comma :: (w' ++ u))), v :: vs, ?_, by simp,
        .cons (by simp [Blanks]) ht hw (hrows.blanks hw')⟩
      rw [hs1', hs2, hu]
      simp
    · exact ⟨[] ++ (t ++ w), [v], by rw [hs1']; simp, rfl, .single (by simp [Blanks]) ht hw⟩

theorem parse_members_rows (hacc : (acc.map Prod.fst).Nodup) (h : parse_members value fuel s acc = some (o, r)) :
    ∃ t ms, s = t ++ rbrace :: r ∧ o = acc ++ ms ∧ (o.map Prod.fst).Nodup ∧ Rows (MemberText E) t ms := by
  induction fuel generalizing s acc with
  | zero => simp [parse_members] at h
  | succ fuel ih =>
    obtain ⟨name, s1, s2, v, s3, d, s4, hname, hs1, hv, hnew, hs3, hrest⟩ := parse_members_succ.mp h
    obtain ⟨text, htext, hzero, rfl⟩ := get_quoted_string_split hname
    obtain ⟨w1, hw1, hs1'⟩ := skip_whitespaces_split s1
    obtain ⟨t, rfl, ht⟩ := hvalue s2 v s3 hv
    obtain ⟨w, hw, hs3'⟩ := skip_whitespaces_split s3
    rw [hs1] at hs1'
    rw [hs3] at hs3'
    have hmember : MemberText E (dquote :: (text ++ dquote :: (w1 ++ colon :: t))) (name, v) :=
      ⟨text, w1, t, htext, hzero, hw1, ht, rfl⟩
    have hacc' : ((acc ++ [(name, v)]).map Prod.fst).Nodup := by
      rw [map_append, nodup_append]
      refine ⟨hacc, by simp, fun n hn n' hn' heq => ?_⟩
      obtain ⟨m, hm, rfl⟩ := mem_map.mp hn
      have := lookup_eq_none_iff.mp hnew m hm
      simp only [map_cons, map_nil, mem_singleton] at hn'
      simp [heq, hn'] at this
    rcases hrest with ⟨rfl, hrest⟩ | ⟨rfl, rfl, rfl⟩
    · obtain ⟨w', hw', hs4⟩ := skip_whitespaces_split s4
      obtain ⟨u, ms, hu, rfl, hnames, hrows⟩ := ih hacc' hrest
      refine ⟨_, (name, v) :: ms, ?_, by simp, hnames,
        .cons (w := []) (by simp [Blanks]) hmember hw (hrows.blanks hw')⟩
      rw [hs1', hs3', hs4, hu]
      simp
    · refine ⟨_, [(name, v)], ?_, rfl, hacc', .single (w := []) (by simp [Blanks]) hmember hw⟩
      rw [hs1', hs3']
      simp

end

theorem parse_number_value_text (hc : isspace c = false)
    (h : parse_number_value (c :: s) = some (v, r)) : ∃ t, c :: s = t ++ r ∧ ValueText E t v := by
  unfold parse_number_value at h
  simp only at h
  split_ifs at h with hbad
  simp only [map_eq_some_iff, Prod.mk.injEq] at h
  obtain ⟨d, hd, rfl, rfl⟩ := h
  simp only [Bool.or_eq_true, not_or, Bool.not_eq_true] at hbad
  refine ⟨(c :: s).take (strtod (c :: s)).consumed, (take_append_drop _ _).symm,
    .number (fun x hx => ?_) (strtod_isDouble hbad.1 hd)⟩
  rw [strtod_cons hc] at hx
  have hle := strtodRun_le ((c :: s).takeWhile numChar)
  have hpre : (c :: s).take (strtodRun ((c :: s).takeWhile numChar)).consumed <+: (c :: s).takeWhile numChar :=
    prefix_of_prefix_length_le ( take_prefix _ _) ( takeWhile_prefix _) (by rw [length_take]; omega)
  exact mem_takeWhile_imp (hpre.subset hx)

theorem parse_object_value_rows (hvalue : ∀ s v r, value s = some (v, r) → ∃ t, s = t ++ r ∧ E t v)
    (h : parse_object_value value s = some (v, r)) :
    ∃ t ms, s = t ++ rbrace :: r ∧ v = .object ms ∧ Rows (MemberText E) t ms ∧ (ms.map Prod.fst).Nodup := by
  obtain ⟨w, hw, hs⟩ := skip_whitespaces_split s
  unfold parse_object_value at h
  split at h
  · cases h
  · rename_i c t hc
    rw [hc] at hs
    split_ifs at h with hbrace
    · cases h
      exact ⟨w, [], by rw [hs, hbrace], rfl, .nil hw, by simp⟩
    · simp only [map_eq_some_iff, Prod.mk.injEq, Prod.exists] at h
      obtain ⟨o, r', hm, rfl, rfl⟩ := h
      obtain ⟨u, ms, hu, rfl, hnames, hrows⟩ := parse_members_rows hvalue (by simp) hm
      exact ⟨w ++ u, _, by rw [hs, hu, append_assoc], rfl, hrows.blanks hw, hnames⟩

theorem parse_value_text (hvalue : ∀ s v r, parse_value depth s = some (v, r) → ∃ t, s = t ++ r ∧ E t v)
    (h : parse_value (depth + 1) s = some (v, r)) : ∃ w t, Blanks w ∧ s = w ++ (t ++ r) ∧ ValueText E t v := by
  obtain ⟨w, hw, hs⟩ := skip_whitespaces_split s
  unfold parse_value at h
  split at h
  · cases h
  · rename_i c t hc
    rw [hc] at hs
    have hsp : isspace c = false := by
      have := head?_dropWhile_not isspace s
      rw [show s.dropWhile isspace = c :: t from hc] at this
      simpa using this
    -- The text behind the white space, in each of the cases.
    suffices hrest : ∃ u, c :: t = u ++ r ∧ ValueText E u v by
      obtain ⟨u, hu, htext⟩ := hrest
      exact ⟨w, u, hw, by rw [hs, hu], htext⟩
    have hliteral : ∀ {lit : Bytes}, lit.isPrefixOf (c :: t) = true → c :: t = lit ++ (c :: t).drop lit.length :=
      fun hlit => by
        obtain ⟨u, hu⟩ := isPrefixOf_iff_prefix.mp hlit
        rw [← hu, drop_left]
    split_ifs at h with hbrace hbracket hquote hbool hnum hnull
    · obtain ⟨u, ms, rfl, rfl, hrows, hnames⟩ := parse_object_value_rows hvalue h
      exact ⟨_, by simp [hbrace], .object hrows hnames⟩
    · obtain ⟨w', hw', hs'⟩ := skip_whitespaces_split t
      unfold parse_array_value at h
      split at h
      · cases h
      · rename_i d t' hd
        rw [hd] at hs'
        split_ifs at h with hclose
        · cases h
          exact ⟨_, by simp [hbracket, hs', hclose], .array (.nil hw')⟩
        · simp only [map_eq_some_iff, Prod.mk.injEq, Prod.exists] at h
          obtain ⟨a, r', hitems, rfl, rfl⟩ := h
          obtain ⟨u, vs, hu, rfl, hrows⟩ := parse_items_rows hvalue hitems
          exact ⟨_, by simp [hbracket, hs', hu], .array (hrows.blanks hw')⟩
    · simp only [map_eq_some_iff, Prod.mk.injEq, Prod.exists] at h
      obtain ⟨str, r', hstr, rfl, rfl⟩ := h
      obtain ⟨text, htext, hzero, hsplit⟩ := get_quoted_string_split hstr
      exact ⟨_, by simp [hsplit], .string htext hzero⟩
    · unfold parse_boolean_value at h
      split_ifs at h with htrue hfalse
      · cases h
        exact ⟨_, hliteral htrue, .boolean true⟩
      · cases h
        exact ⟨_, hliteral hfalse, .boolean false⟩
    · exact parse_number_value_text hsp h
    · unfold parse_null_value at h
      split_ifs at h with hlit
      cases h
      exact ⟨_, hliteral hlit, .null⟩

theorem parse_value_induction {E : Nat → Bytes → JsonValue → Prop}
    (hstep : ∀ depth w t v, Blanks w → ValueText (E depth) t v → E (depth + 1) (w ++ t) v) (depth : Nat) :
    ∀ s v r, parse_value depth s = some (v, r) → ∃ t, s = t ++ r ∧ E depth t v := by
  induction depth with
  | zero => simp [parse_value]
  | succ depth ih =>
    intro s v r h
    obtain ⟨w, t, hw, rfl, htext⟩ := parse_value_text ih h
    exact ⟨w ++ t, by rw [append_assoc], hstep depth w t v hw htext⟩

end Retrace.Parson
