import Retrace.Json.Serialize
import Retrace.Json.Proofs.ConsumedProofs
import Retrace.CLib.Proofs.SubnormalProofs

/-!
# A serialised value is parsed again

`WellFormed` collects what holds of every value that comes from a text: strings are C strings, names
are distinct, the nesting is bounded, numbers are doubles. When no number is subnormal, the parser
reads back what the serialiser wrote.
-/

namespace Retrace.Parson

open CLib List

variable {e t : Bytes} {c : UInt8} {name r s : Bytes} {ms o : JsonObject} {v : JsonValue}

/-- A value that is nested less than `depth` deep, with C strings, distinct names and numbers that meet
`P`. -/
inductive WellFormed (P : ℚ → Prop) : Nat → JsonValue → Prop where
  | null {depth : Nat} : WellFormed P (depth + 1) .null
  | boolean {depth : Nat} (b : Bool) : WellFormed P (depth + 1) (.boolean b)
  | number {depth : Nat} {d : ℚ} (hd : P d) : WellFormed P (depth + 1) (.number d)
  | string {depth : Nat} {s : Bytes} (hs : 0 ∉ s) : WellFormed P (depth + 1) (.string s)
  | array {depth : Nat} {items : List JsonValue} (hitems : ∀ v ∈ items, WellFormed P depth v) :
      WellFormed P (depth + 1) (.array items)
  | object {depth : Nat} {ms : JsonObject} (hnames : (ms.map Prod.fst).Nodup)
      (hzero : ∀ m ∈ ms, 0 ∉ m.1) (hvalues : ∀ m ∈ ms, WellFormed P depth m.2) :
      WellFormed P (depth + 1) (.object ms)

theorem WellFormed.item (hv : WellFormed P depth v) : WellFormed P (depth + 1) (.array [v]) :=
  .array (by simpa using hv)

theorem WellFormed.member (hname : 0 ∉ name) (hv : WellFormed P depth v) :
    WellFormed P (depth + 1) (.object [(name, v)]) :=
  .object (by simp) (by simpa using hname) (by simpa using hv)

theorem WellFormed.pair (hne : n₁ ≠ n₂) (h₁ : 0 ∉ n₁) (h₂ : 0 ∉ n₂)
    (hv₁ : WellFormed P depth v₁) (hv₂ : WellFormed P depth v₂) :
    WellFormed P (depth + 1) (.object [(n₁, v₁), (n₂, v₂)]) :=
  .object (by simpa using hne) (by simpa using ⟨h₁, h₂⟩) (by simpa using ⟨hv₁, hv₂⟩)

theorem skip_quotes_plain_append (ha : Plain a) :
    skip_quotes (a ++ s) = (skip_quotes s).map fun (x, r) => (a ++ x, r) := by
  induction a with
  | nil => simp
  | cons c a ih =>
    obtain ⟨hc, ha⟩ := (plain_cons c a).mp ha
    rw [cons_append, skip_quotes_cons (plainChar_ne_dquote hc) (plainChar_ne_backslash hc), ih ha, Option.map_map]
    rfl

theorem hexFixed_plain : Plain (hexFixed k n) := fun c hc => by
  obtain ⟨d, hd, rfl⟩ := mem_hexFixed hc
  exact (hexDigit_spec d hd).2.2.1

theorem parse_utf16_hexFixed (hn : n < 128) : parse_utf16 (hexFixed 4 n ++ s) = some ([n.toUInt8], s) := by
  have hval := digitsVal_hexFixed 4 n
  have hmem : ∀ c ∈ hexFixed 4 n, isxdigit c = true := fun c hc => by
    obtain ⟨d, hd, rfl⟩ := mem_hexFixed hc
    exact (hexDigit_spec d hd).2.1
  obtain ⟨a, b, c, d, habcd⟩ : ∃ a b c d, hexFixed 4 n = [a, b, c, d] := ⟨_, _, _, _, rfl⟩
  rw [habcd] at hval hmem ⊢
  have hhex : parse_utf16_hex ([a, b, c, d] ++ s) = some n := by
    simp only [cons_append, nil_append, parse_utf16_hex, hmem a (by simp), hmem b (by simp),
      hmem c (by simp), hmem d (by simp), Bool.and_self, if_true, hval]
    rw [Nat.mod_eq_of_lt (by omega)]
  rw [parse_utf16, hhex]
  simp only [Option.bind_eq_bind, Option.bind_some, hn, if_true]
  rfl

def Escape (c : UInt8) (e : Bytes) : Prop :=
  (∃ d, e = [backslash, d] ∧ escaped d = some c ∧ d ≠ 117 ∧ 32 ≤ d) ∨
    (c < 32 ∧ e = backslash :: 117 :: hexFixed 4 c.toNat) ∨
    (c ≠ dquote ∧ c ≠ backslash ∧ ¬ c < 32 ∧ e = [c])

theorem escape_escape_char (c : UInt8) : Escape c (escape_char c) := by
  by_cases hletter : c = dquote ∨ c = backslash ∨ c = 47 ∨ c = 8 ∨ c = 12 ∨ c = 10 ∨ c = 13 ∨ c = 9
  · rcases hletter with rfl | rfl | rfl | rfl | rfl | rfl | rfl | rfl <;> exact .inl ⟨_, rfl, by decide⟩
  · simp only [not_or] at hletter
    obtain ⟨h1, h2, h3, h4, h5, h6, h7, h8⟩ := hletter
    right
    rw [escape_char, if_neg h1, if_neg h2, if_neg h3, if_neg h4, if_neg h5, if_neg h6, if_neg h7, if_neg h8]
    by_cases h9 : c < 32
    · exact .inl ⟨h9, if_pos h9⟩
    · exact .inr ⟨h1, h2, h9, if_neg h9⟩

theorem Escape.skip_quotes (h : Escape c e) (s : Bytes) :
    skip_quotes (e ++ s) = (skip_quotes s).map fun (a, r) => (e ++ a, r) := by
  rcases h with ⟨d, rfl, -⟩ | ⟨-, rfl⟩ | ⟨hq, hb, -, rfl⟩
  · exact skip_quotes_backslash _ s
  · rw [cons_append, cons_append, skip_quotes_backslash, skip_quotes_plain_append hexFixed_plain, Option.map_map]
    rfl
  · exact skip_quotes_cons hq hb s

theorem Escape.process_loop (h : Escape c e) (fuel : Nat) (s : Bytes) :
    process_loop (fuel + 1) (e ++ s) = (process_loop fuel s).map (c :: ·) := by
  rcases h with ⟨d, rfl, hd, hu, -⟩ | ⟨hlt, rfl⟩ | ⟨-, hb, hctl, rfl⟩
  · rw [cons_append, cons_append, nil_append, process_loop.eq_def]
    simp [hu, hd, Option.map_eq_bind]
  · have hlt' : c.toNat < 128 := lt_trans (UInt8.lt_iff_toNat_lt.mp hlt) (by decide)
    have hc : c.toNat.toUInt8 = c := by simp
    rw [cons_append, cons_append, process_loop.eq_def]
    simp [parse_utf16_hexFixed hlt', hc, Option.map_eq_bind]
  · exact process_loop_cons hb hctl fuel s

theorem Escape.not_mem_zero (h : Escape c e) : 0 ∉ e := by
  have hhex : ∀ n < 32, 0 ∉ hexFixed 4 n := by decide
  rcases h with ⟨d, rfl, -, -, hd⟩ | ⟨hlt, rfl⟩ | ⟨-, -, hctl, rfl⟩
  · rintro h
    simp only [mem_cons, not_mem_nil, or_false] at h
    rcases h with h | rfl
    · exact absurd h (by decide)
    · exact absurd hd (by decide)
  · simpa using ⟨by decide, hhex c.toNat hlt⟩
  · rw [mem_singleton]
    rintro rfl
    exact hctl (by decide)

theorem Escape.length_pos (h : Escape c e) : 0 < e.length := by
  rcases h with ⟨d, rfl, -⟩ | ⟨-, rfl⟩ | ⟨-, -, -, rfl⟩ <;> simp

section

variable {esc : UInt8 → Bytes} (hesc : ∀ c, Escape c (esc c))
include hesc

theorem skip_quotes_escaped (s t : Bytes) :
    skip_quotes (s.flatMap esc ++ t) = (skip_quotes t).map fun (a, r) => (s.flatMap esc ++ a, r) := by
  induction s with
  | nil => simp
  | cons c s ih =>
    rw [flatMap_cons, append_assoc, (hesc c).skip_quotes, ih, Option.map_map]
    congr 1
    funext x
    simp

theorem process_loop_escaped (hf : s.length ≤ fuel) : process_loop fuel (s.flatMap esc) = some s := by
  induction s generalizing fuel with
  | nil => cases fuel <;> rfl
  | cons c s ih =>
    rw [length_cons] at hf
    obtain ⟨fuel, rfl⟩ : ∃ n, fuel = n + 1 := Nat.exists_eq_succ_of_ne_zero (by omega)
    rw [flatMap_cons, (hesc c).process_loop, ih (by omega)]
    rfl

theorem length_le_flatMap_escape (s : Bytes) : s.length ≤ (s.flatMap esc).length := by
  induction s with
  | nil => simp
  | cons c s ih =>
    have := (hesc c).length_pos
    rw [flatMap_cons, length_append, length_cons]
    omega

theorem get_quoted_string_escaped (hs : 0 ∉ s) (t : Bytes) :
    get_quoted_string (dquote :: (s.flatMap esc ++ dquote :: t)) = some (s, t) := by
  have hskip : skip_quotes (s.flatMap esc ++ dquote :: t) = some (s.flatMap esc, t) := by
    rw [skip_quotes_escaped hesc, skip_quotes_dquote]
    simp
  have hproc := process_loop_escaped hesc (length_le_flatMap_escape hesc s)
  simp only [get_quoted_string, if_true, hskip, Option.bind_eq_bind, Option.bind_some, process_string, hproc,
    Option.map_some, cstr_eq_self hs]

end

theorem not_mem_zero_serialize_string : 0 ∉ json_serialize_string s := by
  have hchars : 0 ∉ s.flatMap escape_char := fun h => by
    obtain ⟨c, -, hc⟩ := mem_flatMap.mp h
    exact (escape_escape_char c).not_mem_zero hc
  simpa [json_serialize_string, hchars] using (by decide : (0 : UInt8) ≠ dquote)

theorem get_quoted_string_serialize (hs : 0 ∉ s) :
    get_quoted_string (json_serialize_string s ++ t) = some (s, t) := by
  rw [json_serialize_string, cons_append, append_assoc]
  exact get_quoted_string_escaped escape_escape_char hs t

theorem is_decimal_fmtG17 : is_decimal (fmtG17 q) (fmtG17 q).length = true := by
  obtain ⟨neg, int, frac, u, e, htext, hint, hne, hfrac, hu, hhead, -⟩ := fmtG17_text q
  have hchars : ∀ c ∈ fmtG17 q, (c != 120 && c != 88) = true := by
    intro c hc
    rw [htext] at hc
    have hdec : decChar c = true := by
      rcases mem_append.mp hc with hc | hc
      · cases neg with
        | true =>
          rw [mem_singleton.mp hc]
          rfl
        | false => simp at hc
      · rcases mem_append.mp hc with hc | hc
        · exact decChar_pointed hint hfrac c hc
        · exact hu.decChar c hc
    by_contra hx
    simp only [Bool.and_eq_true, bne_iff_ne, not_and_or, not_not] at hx
    rcases hx with rfl | rfl
    · exact absurd hdec (by decide)
    · exact absurd hdec (by decide)
  obtain ⟨c, int, rfl⟩ := exists_cons_of_ne_nil hne
  have hc : isdigit c = true := hint c (by simp)
  -- behind a leading zero comes the point, or nothing
  have hzero : c = 48 → int = [] ∧ (stripZeros frac ≠ [] ∨ u = [] ∧ neg = false) := fun h => by
    simpa [h] using hhead (by simp [h])
  have hall : ((fmtG17 q).take (fmtG17 q).length).all (fun c => c != 120 && c != 88) = true := by
    rw [take_length]
    exact all_eq_true.mpr hchars
  rw [is_decimal, hall, Bool.and_true, htext]
  cases neg with
  | true =>
    have h45 : (45 : UInt8) ≠ 48 := by decide
    by_cases h0 : c = 48
    · obtain ⟨rfl, hstrip | ⟨-, h⟩⟩ := hzero h0
      · simp [pointed, h0, hstrip]
      · cases h
    · simp [pointed, h0]
  | false =>
    have h45 : c ≠ 45 := ne_of_isdigit hc (by decide)
    by_cases h0 : c = 48
    · obtain ⟨rfl, hstrip | ⟨rfl, -⟩⟩ := hzero h0
      · simp [pointed, h0, hstrip]
      · by_cases hstrip : stripZeros frac = []
        · simp [pointed, h0, hstrip]
        · simp [pointed, h0, hstrip]
    · simp [pointed, h0, h45]

theorem parse_number_value_fmtG17 (hq : IsNormal q) (ht : NumberEnds t) :
    parse_number_value (fmtG17 q ++ t) = some (.number q, t) := by
  simp only [parse_number_value, strtod_fmtG17 hq ht, is_decimal_append (le_refl _), is_decimal_fmtG17,
    Bool.false_or, Bool.not_true, Bool.false_eq_true, if_false, Option.map_some, drop_left]

theorem parse_number_value_double (hq : IsDouble q) (ht : NumberEnds t) :
    parse_number_value (fmtG17 q ++ t) = if notSubnormal q then some (.number q, t) else none := by
  split_ifs with hnum
  · exact parse_number_value_fmtG17 ⟨hq, by simpa [notSubnormal] using hnum⟩ ht
  · simp only [notSubnormal, decide_eq_true_eq, not_or, not_le] at hnum
    simp [parse_number_value, strtod_subnormal hq hnum.1 hnum.2 ht]

theorem Blanks.not_mem_zero (hw : Blanks w) : 0 ∉ w := fun h => absurd (hw 0 h) (by decide)

theorem skip_whitespaces_blank (hw : Blanks w) : skip_whitespaces (w ++ s) = skip_whitespaces s :=
  dropWhile_append_of_pos hw

theorem numberEnds_cons (hc : numChar c = false) (t : Bytes) : NumberEnds (c :: t) := by
  intro d hd
  simp only [head?_cons, Option.mem_some_iff] at hd
  rwa [← hd]

theorem numChar_of_isspace (h : isspace c = true) : numChar c = false := by
  have hc : c = 32 ∨ c = 9 ∨ c = 10 ∨ c = 11 ∨ c = 12 ∨ c = 13 := by
    simp only [isspace, Bool.or_eq_true, beq_iff_eq, Bool.and_eq_true, decide_eq_true_eq, UInt8.le_iff_toNat_le,
      ← UInt8.toNat_inj, UInt8.toNat_ofNat] at h ⊢
    omega
  rcases hc with rfl | rfl | rfl | rfl | rfl | rfl <;> rfl

theorem numberEnds_blank (hw : Blanks w) (hc : numChar c = false) : NumberEnds (w ++ c :: t) := by
  cases w with
  | nil => exact numberEnds_cons hc t
  | cons d w => exact numberEnds_cons (numChar_of_isspace (hw d (by simp))) _

def joined {α : Type} (lead : Bytes) (text : α → Bytes) : List α → Bytes
  | [] => []
  | x :: xs => lead ++ (text x ++ if xs.isEmpty then [] else comma :: joined lead text xs)

theorem joined_map (lead : Bytes) (text : β → Bytes) (f : α → β) (xs : List α) :
    joined lead text (xs.map f) = joined lead (text ∘ f) xs := by
  induction xs with
  | nil => rfl
  | cons x xs ih => rw [map_cons, joined, joined, ih, isEmpty_map, Function.comp_apply]

def Opens (text : Bytes) : Prop := ∃ c s, text = c :: s ∧ isspace c = false ∧ c ≠ rbracket

theorem not_mem_zero_joined (hlead : Blanks lead) (h : ∀ x ∈ xs, 0 ∉ text x) : 0 ∉ joined lead text xs := by
  induction xs with
  | nil => simp [joined]
  | cons x xs ih =>
    have hrest := ih fun y hy => h y (mem_cons_of_mem x hy)
    rw [joined]
    split_ifs
    · simp [hlead.not_mem_zero, h x (by simp)]
    · simpa [hlead.not_mem_zero, h x (by simp), hrest] using (by decide : (0 : UInt8) ≠ comma)

theorem skip_whitespaces_joined (hlead : Blanks lead) (h : Opens (text x)) :
    skip_whitespaces (joined lead text (x :: xs) ++ t) =
      text x ++ ((if xs.isEmpty then [] else comma :: joined lead text xs) ++ t) := by
  obtain ⟨c, s, hs, hsp, -⟩ := h
  rw [joined, append_assoc, skip_whitespaces_blank hlead, append_assoc, hs]
  exact skip_whitespaces_cons hsp _

theorem numberEnds_joined (hw : Blanks w) (hc : numChar c = false) (lead : Bytes) (text : α → Bytes)
    (xs : List α) (t : Bytes) :
    NumberEnds ((if xs.isEmpty then [] else comma :: joined lead text xs) ++ (w ++ c :: t)) := by
  cases xs with
  | nil => exact numberEnds_blank hw hc
  | cons x xs => exact numberEnds_cons (by decide : numChar comma = false) _

theorem skip_whitespaces_end (hw : Blanks w) (hc : isspace c = false) :
    skip_whitespaces (w ++ c :: t) = c :: t := by
  rw [skip_whitespaces_blank hw]
  exact skip_whitespaces_cons hc t

theorem length_le_joined (lead : Bytes) (h : ∀ x ∈ xs, Opens (text x)) :
    xs.length ≤ (joined lead text xs).length := by
  induction xs with
  | nil => simp
  | cons x xs ih =>
    have hxs := ih fun y hy => h y (mem_cons_of_mem _ hy)
    obtain ⟨c, s, hs, -⟩ := h x (by simp)
    rw [joined, hs]
    cases xs with
    | nil => simp; omega
    | cons y xs => simp at hxs ⊢; omega

theorem length_le_skip_joined (hlead : Blanks lead) (h : ∀ y ∈ x :: xs, Opens (text y)) (t : Bytes) :
    (x :: xs).length ≤ (skip_whitespaces (joined lead text (x :: xs) ++ t)).length := by
  have hxs := length_le_joined lead fun y hy => h y (mem_cons_of_mem x hy)
  obtain ⟨c, s, hs, -⟩ := h x (by simp)
  rw [skip_whitespaces_joined hlead (h x (by simp)), hs]
  cases xs with
  | nil => simp
  | cons y xs => simp at hxs ⊢; omega

/-- The parser `value` reads the text of `v` whatever follows, if `v` is one that `ok` admits. -/
def ReadsAs (value : Bytes → Option (JsonValue × Bytes)) (ok : JsonValue → Bool) (text : Bytes)
    (v : JsonValue) : Prop :=
  ∀ t, NumberEnds t → value (text ++ t) = if ok v then some (v, t) else none

theorem lookup_eq_none_of_nodup (h : ((acc ++ (name, v) :: ms).map Prod.fst).Nodup) : acc.lookup name = none := by
  rw [lookup_eq_none_iff]
  intro m hm
  rw [map_append, nodup_append] at h
  have := h.2.2 m.1 (mem_map_of_mem hm) name (by simp)
  simpa using Ne.symm this

section

variable {text : JsonValue → Bytes}

theorem parse_items_joined (hlead : Blanks lead) (hw : Blanks w)
    (h : ∀ x ∈ v :: vs, Opens (text x) ∧ ReadsAs value ok (text x) x) (t : Bytes)
    (hf : (v :: vs).length ≤ fuel) (acc : List JsonValue) :
    parse_items value fuel (skip_whitespaces (joined lead text (v :: vs) ++ (w ++ rbracket :: t))) acc =
      if (v :: vs).all ok then some (acc ++ v :: vs, t) else none := by
  induction fuel generalizing v vs acc with
  | zero => simp at hf
  | succ fuel ih =>
    obtain ⟨hopen, hv⟩ := h v (by simp)
    rw [skip_whitespaces_joined hlead hopen, parse_items,
      hv _ (numberEnds_joined hw (by decide) lead text vs t), all_cons]
    by_cases hok : ok v = true
    · cases vs with
      | nil => simp [hok, skip_whitespaces_end hw (by decide : isspace rbracket = false),
          (by decide : rbracket ≠ comma)]
      | cons v' vs =>
        have hrest := ih (fun x hx => h x (mem_cons_of_mem _ hx)) (by simpa using hf) (acc ++ [v])
        rw [hok, Bool.true_and, append_cons acc v (v' :: vs), ← hrest]
        simp [skip_whitespaces_cons (by decide : isspace comma = false)]
    · simp [hok]

theorem parse_array_value_joined (hlead : Blanks lead) (hw : Blanks w)
    (h : ∀ x ∈ vs, Opens (text x) ∧ ReadsAs value ok (text x) x) (t : Bytes) :
    parse_array_value value (joined lead text vs ++ (w ++ rbracket :: t)) =
      if vs.all ok then some (.array vs, t) else none := by
  cases vs with
  | nil =>
    rw [joined, nil_append, parse_array_value, skip_whitespaces_blank hw]
    simp [skip_whitespaces_cons (by decide : isspace rbracket = false)]
  | cons v vs =>
    have hlen := length_le_skip_joined hlead (fun y hy => (h y hy).1) (w ++ rbracket :: t)
    have hparse := parse_items_joined hlead hw h t hlen []
    obtain ⟨c, s, hs, -, hne⟩ := (h v (by simp)).1
    obtain ⟨r, hr⟩ : ∃ r, skip_whitespaces (joined lead text (v :: vs) ++ (w ++ rbracket :: t)) = c :: r := by
      rw [skip_whitespaces_joined hlead (h v (by simp)).1, hs]
      exact ⟨_, rfl⟩
    rw [hr] at hparse
    rw [parse_array_value, hr]
    simp only [if_neg hne, hparse, nil_append]
    split_ifs <;> rfl

/-- A member as it stands in the text of an object, with `gap` between the colon and the value. -/
def memberText (gap : Bytes) (text : JsonValue → Bytes) (m : Bytes × JsonValue) : Bytes :=
  json_serialize_string m.1 ++ colon :: (gap ++ text m.2)

theorem opens_memberText : Opens (memberText gap text m) :=
  ⟨dquote, _, rfl, by decide⟩

theorem parse_members_joined (hlead : Blanks lead) (hw : Blanks w)
    (h : ∀ x ∈ m :: ms, 0 ∉ x.1 ∧ ReadsAs value ok (gap ++ text x.2) x.2)
    (t : Bytes) (hf : (m :: ms).length ≤ fuel) (acc : JsonObject)
      (hnames : ((acc ++ m :: ms).map Prod.fst).Nodup) :
    parse_members value fuel
        (skip_whitespaces (joined lead (memberText gap text) (m :: ms) ++ (w ++ rbrace :: t))) acc =
      if (m :: ms).all (fun x => ok x.2) then some (acc ++ m :: ms, t) else none := by
  induction fuel generalizing m ms acc with
  | zero => simp at hf
  | succ fuel ih =>
    obtain ⟨name, v⟩ := m
    obtain ⟨hzero, hv⟩ := h (name, v) (by simp)
    have hv := hv _ (numberEnds_joined hw (by decide : numChar rbrace = false) lead (memberText gap text) ms t)
    rw [append_assoc] at hv
    rw [skip_whitespaces_joined hlead opens_memberText, all_cons, memberText, append_assoc, cons_append,
      append_assoc, parse_members, get_quoted_string_serialize hzero]
    simp only [Option.bind_eq_bind, Option.bind_some,
      skip_whitespaces_cons (by decide : isspace colon = false), if_true,
      hv]
    by_cases hok : ok v = true
    · cases ms with
      | nil =>
        simp [hok, lookup_eq_none_of_nodup hnames, skip_whitespaces_end hw (by decide : isspace rbrace = false),
          (by decide : rbrace ≠ comma)]
      | cons m' ms =>
        have hrest := ih (fun x hx => h x (mem_cons_of_mem _ hx)) (by simpa using hf) (acc ++ [(name, v)])
          (by simpa using hnames)
        rw [hok, Bool.true_and, append_cons acc (name, v) (m' :: ms), ← hrest]
        simp [lookup_eq_none_of_nodup hnames, skip_whitespaces_cons (by decide : isspace comma = false)]
    · simp [hok]

theorem parse_object_value_joined (hlead : Blanks lead) (hw : Blanks w)
    (h : ∀ x ∈ ms, 0 ∉ x.1 ∧ ReadsAs value ok (gap ++ text x.2) x.2)
      (hnames : (ms.map Prod.fst).Nodup) (t : Bytes) :
    parse_object_value value (joined lead (memberText gap text) ms ++ (w ++ rbrace :: t)) =
      if ms.all (fun x => ok x.2) then some (.object ms, t) else none := by
  cases ms with
  | nil =>
    rw [joined, nil_append, parse_object_value, skip_whitespaces_blank hw]
    simp [skip_whitespaces_cons (by decide : isspace rbrace = false)]
  | cons m ms =>
    have hlen : (m :: ms).length ≤
        (skip_whitespaces (joined lead (memberText gap text) (m :: ms) ++ (w ++ rbrace :: t))).length :=
      length_le_skip_joined hlead (fun y _ => opens_memberText) _
    have hparse := parse_members_joined hlead hw h t hlen [] hnames
    obtain ⟨r, hr⟩ : ∃ r, skip_whitespaces (joined lead (memberText gap text) (m :: ms) ++ (w ++ rbrace :: t)) =
        dquote :: r := by
      rw [skip_whitespaces_joined hlead opens_memberText]
      exact ⟨_, rfl⟩
    rw [hr] at hparse
    rw [parse_object_value, hr]
    simp only [if_neg (by decide : dquote ≠ rbrace), hparse, nil_append]
    split_ifs <;> rfl

end

theorem allNumbersItems_eq_all : allNumbersItems p vs = vs.all (allNumbers p) := by
  induction vs with
  | nil => rfl
  | cons v vs ih => rw [allNumbersItems, ih, all_cons]

theorem allNumbersMembers_eq_all : allNumbersMembers p ms = ms.all fun m => allNumbers p m.2 := by
  induction ms with
  | nil => rfl
  | cons m ms ih => rw [allNumbersMembers, ih, all_cons]

theorem allNumbersItems_iff : allNumbersItems p vs = true ↔ ∀ v ∈ vs, allNumbers p v = true := by
  rw [allNumbersItems_eq_all, all_eq_true]

theorem allNumbersMembers_iff : allNumbersMembers p ms = true ↔ ∀ m ∈ ms, allNumbers p m.2 = true := by
  rw [allNumbersMembers_eq_all, all_eq_true]

/-- A way to write values, at a level of nesting: only blanks between the items tell it from the short one. -/
structure Spelling (ser : Nat → JsonValue → Bytes) : Prop where
  scalar : ∀ level v, (∀ vs, v ≠ .array vs) → (∀ ms, v ≠ .object ms) → ser level v = json_serialize_to_buffer_r v
  array : ∀ level vs, ∃ lead w, Blanks lead ∧ Blanks w ∧
    ser level (.array vs) = lbracket :: (joined lead (ser (level + 1)) vs ++ (w ++ [rbracket]))
  object : ∀ level ms, ∃ lead gap w, Blanks lead ∧ Blanks gap ∧ Blanks w ∧
    ser level (.object ms) = lbrace :: (joined lead (memberText gap (ser (level + 1))) ms ++ (w ++ [rbrace]))

theorem Spelling.exists_cons (h : Spelling ser) :
    ∃ c s, ser level v = c :: s ∧ isspace c = false ∧ c ≠ rbracket ∧ c ≠ 0xEF := by
  cases v with
  | array vs =>
    obtain ⟨lead, w, -, -, hser⟩ := h.array level vs
    exact ⟨lbracket, _, hser, by decide⟩
  | object ms =>
    obtain ⟨lead, gap, w, -, -, -, hser⟩ := h.object level ms
    exact ⟨lbrace, _, hser, by decide⟩
  | null => exact ⟨110, _, h.scalar level .null (by simp) (by simp), by decide⟩
  | boolean b =>
    rw [h.scalar level (.boolean b) (by simp) (by simp)]
    cases b with
    | true => exact ⟨116, _, rfl, by decide⟩
    | false => exact ⟨102, _, rfl, by decide⟩
  | number d =>
    rw [h.scalar level (.number d) (by simp) (by simp)]
    obtain ⟨c, s, hs, hc, hsp⟩ := exists_cons_fmtG17 d
    refine ⟨c, s, by rw [json_serialize_to_buffer_r, hs], hsp, ?_⟩
    rcases hc with rfl | hc
    · decide
    · exact ⟨ne_of_isdigit hc (by decide), ne_of_isdigit hc (by decide)⟩
  | string s => exact ⟨dquote, _, (h.scalar level (.string s) (by simp) (by simp)).trans rfl, by decide⟩

theorem Spelling.opens (h : Spelling ser) (level : Nat) (v : JsonValue) : Opens (ser level v) := by
  obtain ⟨c, s, hs, hsp, hne, -⟩ := h.exists_cons
  exact ⟨c, s, hs, hsp, hne⟩

theorem Spelling.not_mem_zero (h : Spelling ser) : ∀ (level : Nat) (v : JsonValue), 0 ∉ ser level v
  | level, .null => by
    rw [h.scalar level .null (by simp) (by simp)]
    exact (by decide : (0 : UInt8) ∉ bytes "null")
  | level, .boolean b => by
    rw [h.scalar level (.boolean b) (by simp) (by simp)]
    cases b with
    | true => exact (by decide : (0 : UInt8) ∉ bytes "true")
    | false => exact (by decide : (0 : UInt8) ∉ bytes "false")
  | level, .number d => by
    rw [h.scalar level (.number d) (by simp) (by simp)]
    exact fun hmem => absurd (numChar_of_mem_fmtG17 hmem) (by decide)
  | level, .string s => by
    rw [h.scalar level (.string s) (by simp) (by simp)]
    exact not_mem_zero_serialize_string
  | level, .array vs => by
    obtain ⟨lead, w, hlead, hw, htext⟩ := h.array level vs
    have hitems := not_mem_zero_joined hlead fun v (_ : v ∈ vs) => h.not_mem_zero (level + 1) v
    rw [htext]
    simpa [hitems, hw.not_mem_zero] using (by decide : (0 : UInt8) ≠ lbracket ∧ 0 ≠ rbracket)
  | level, .object ms => by
    obtain ⟨lead, gap, w, hlead, hgap, hw, htext⟩ := h.object level ms
    have hmember : ∀ m ∈ ms, 0 ∉ memberText gap (ser (level + 1)) m := by
      rintro ⟨name, v⟩ hm
      have hlt : sizeOf v < sizeOf ms := lt_trans (by simp) (sizeOf_lt_of_mem hm)
      have hv := h.not_mem_zero (level + 1) v
      simpa [memberText, not_mem_zero_serialize_string, hgap.not_mem_zero,
        hv] using (by decide : (0 : UInt8) ≠ colon)
    rw [htext]
    simpa [not_mem_zero_joined hlead hmember,
      hw.not_mem_zero] using (by decide : (0 : UInt8) ≠ lbrace ∧ 0 ≠ rbrace)
termination_by _ v => sizeOf v

theorem parse_value_skip (h : skip_whitespaces s = skip_whitespaces t) :
    parse_value depth s = parse_value depth t := by
  cases depth with
  | zero => rfl
  | succ depth => simp only [parse_value, h]

theorem parse_value_dquote (s : Bytes) : parse_value (depth + 1) (dquote :: s) =
    (get_quoted_string (dquote :: s)).map fun (a, r) => (.string a, r) := by
  simp only [parse_value, skip_whitespaces_cons (by decide : isspace dquote = false),
    if_neg (by decide : dquote ≠ lbrace), if_neg (by decide : dquote ≠ lbracket), if_true]

theorem parse_value_lbracket (s : Bytes) :
    parse_value (depth + 1) (lbracket :: s) = parse_array_value (parse_value depth) s := by
  simp only [parse_value, skip_whitespaces_cons (by decide : isspace lbracket = false),
    if_neg (by decide : lbracket ≠ lbrace), if_true]

theorem dropBom_cons (hc : c ≠ 0xEF) (s : Bytes) : dropBom (c :: s) = c :: s := by
  rw [dropBom.eq_def]
  split
  · next a b d s' heq =>
    obtain ⟨rfl, rfl⟩ := List.cons.inj heq
    rw [if_neg fun h => hc h.1]
  · rfl

theorem parse_value_spelled (hser : Spelling ser) (h : WellFormed IsDouble depth v) (level : Nat) :
    ReadsAs (parse_value depth) (allNumbers notSubnormal) (ser level v) v := by
  induction h generalizing level with
  | null =>
    intro t _
    rw [hser.scalar level .null (by simp) (by simp)]
    rfl
  | boolean b =>
    intro t _
    rw [hser.scalar level (.boolean b) (by simp) (by simp)]
    cases b <;> rfl
  | @number depth q hq =>
    intro t ht
    obtain ⟨c, s, hs, hc, hsp⟩ := exists_cons_fmtG17 q
    have hnum := parse_number_value_double hq ht
    rw [hser.scalar level (.number q) (by simp) (by simp), json_serialize_to_buffer_r, allNumbers]
    rw [hs, cons_append] at hnum ⊢
    have hne : c ≠ lbrace ∧ c ≠ lbracket ∧ c ≠ dquote ∧ ¬(c = 102 ∨ c = 116) := by
      rcases hc with rfl | hc
      · decide
      · exact ⟨ne_of_isdigit hc (by decide), ne_of_isdigit hc (by decide), ne_of_isdigit hc (by decide),
          not_or.mpr ⟨ne_of_isdigit hc (by decide), ne_of_isdigit hc (by decide)⟩⟩
    simp only [parse_value, skip_whitespaces_cons hsp, if_neg hne.1, if_neg hne.2.1, if_neg hne.2.2.1,
      if_neg hne.2.2.2, if_pos hc, hnum]
  | @string depth s hs =>
    intro t _
    rw [hser.scalar level (.string s) (by simp) (by simp), json_serialize_to_buffer_r, json_serialize_string,
      cons_append, parse_value_dquote, ← cons_append]
    exact congrArg _ (get_quoted_string_serialize hs)
  | @array depth items hitems ih =>
    intro t _
    obtain ⟨lead, w, hlead, hw, htext⟩ := hser.array level items
    have harr := parse_array_value_joined hlead hw
      (fun v hv => ⟨hser.opens (level + 1) v, ih v hv (level + 1)⟩) t
    rw [htext, cons_append, append_assoc, append_assoc, allNumbers, allNumbersItems_eq_all, parse_value_lbracket]
    exact harr
  | @object depth ms hnames hzero hvalues ih =>
    intro t _
    obtain ⟨lead, gap, w, hlead, hgap, hw, htext⟩ := hser.object level ms
    have hmembers : ∀ x ∈ ms, 0 ∉ x.1 ∧
        ReadsAs (parse_value depth) (allNumbers notSubnormal) (gap ++ ser (level + 1) x.2) x.2 := by
      refine fun x hx => ⟨hzero x hx, fun t ht => ?_⟩
      rw [append_assoc, parse_value_skip (skip_whitespaces_blank hgap)]
      exact ih x hx (level + 1) t ht
    have hobj := parse_object_value_joined hlead hw hmembers hnames t
    rw [htext, cons_append, append_assoc, append_assoc, allNumbers, allNumbersMembers_eq_all]
    simp only [parse_value, skip_whitespaces_cons (by decide : isspace lbrace = false), if_true, cons_append,
      nil_append, hobj]

theorem json_parse_spelled (hser : Spelling ser) (h : WellFormed IsDouble (MAX_NESTING + 1) v) (level : Nat)
    (ht : NumberEnds t) :
    json_parse_string (ser level v ++ t) = if allNumbers notSubnormal v then some v else none := by
  have hbom : dropBom (ser level v ++ t) = ser level v ++ t := by
    obtain ⟨c, s, hs, -, -, hc⟩ := hser.exists_cons
    rw [hs, cons_append, dropBom_cons hc]
  rw [json_parse_string, hbom, parse_value_spelled hser h level t ht]
  split_ifs <;> rfl

theorem WellFormed.double (h : WellFormed IsNormal depth v) :
    WellFormed IsDouble depth v ∧ allNumbers notSubnormal v = true := by
  induction h with
  | null => exact ⟨.null, rfl⟩
  | boolean b => exact ⟨.boolean b, rfl⟩
  | number hd => exact ⟨.number hd.toIsDouble, by simpa [allNumbers, notSubnormal] using hd.normal⟩
  | string hs => exact ⟨.string hs, rfl⟩
  | array hitems ih =>
    refine ⟨.array fun v hv => (ih v hv).1, ?_⟩
    rw [allNumbers, allNumbersItems_iff]
    exact fun v hv => (ih v hv).2
  | object hnames hzero hvalues ih =>
    refine ⟨.object hnames hzero fun m hm => (ih m hm).1, ?_⟩
    rw [allNumbers, allNumbersMembers_iff]
    exact fun m hm => (ih m hm).2

theorem serialize_items_eq : serialize_items vs = joined [] json_serialize_to_buffer_r vs := by
  induction vs with
  | nil => rw [serialize_items, joined]
  | cons v vs ih => rw [serialize_items, joined, ih, nil_append]

theorem serialize_members_eq : serialize_members ms = joined [] (memberText [] json_serialize_to_buffer_r) ms := by
  induction ms with
  | nil => rw [serialize_members, joined]
  | cons m ms ih => simp [serialize_members, joined, ih, memberText]

theorem blank_nil : Blanks [] := fun _ hc => absurd hc not_mem_nil

theorem spelling_serialize : Spelling fun _ => json_serialize_to_buffer_r where
  scalar _ _ _ _ := rfl
  array _ vs := ⟨[], [], blank_nil, blank_nil, by rw [json_serialize_to_buffer_r, serialize_items_eq, nil_append]⟩
  object _ ms := ⟨[], [], [], blank_nil, blank_nil, blank_nil, by
    rw [json_serialize_to_buffer_r, serialize_members_eq, nil_append]⟩

theorem not_mem_zero_serialize (v : JsonValue) : 0 ∉ json_serialize_to_string v :=
  spelling_serialize.not_mem_zero 0 v

theorem wellFormed_step
    (h : ValueText (fun _ v => WellFormed IsDouble depth v) t v) : WellFormed IsDouble (depth + 1) v := by
  cases h with
  | null => exact .null
  | boolean b => exact .boolean b
  | number _ hq => exact .number hq
  | string _ hstr => exact .string hstr
  | array h => exact .array (h.forall fun _ _ hv => hv)
  | object h hnames =>
    refine .object hnames (h.forall ?_) (h.forall ?_)
    · rintro _ m ⟨_, _, _, -, hzero, -⟩
      exact hzero
    · rintro _ m ⟨_, _, _, -, -, -, hv, -⟩
      exact hv

theorem wellFormed_parse_value (h : parse_value depth s = some (v, r)) : WellFormed IsDouble depth v := by
  obtain ⟨t, -, hv⟩ := parse_value_induction (E := fun depth _ v => WellFormed IsDouble depth v)
    (fun _ _ _ _ _ h => wellFormed_step h) depth s v r h
  exact hv

theorem wellFormed_json_parse (h : json_parse_string s = some v) : WellFormed IsDouble (MAX_NESTING + 1) v := by
  simp only [json_parse_string, Option.map_eq_some_iff, Prod.exists] at h
  obtain ⟨v', r, hv, rfl⟩ := h
  exact wellFormed_parse_value hv

theorem WellFormed.and (hpq : ∀ d, P d → p d = true → Q d)
    (h : WellFormed P depth v) (hp : allNumbers p v = true) : WellFormed Q depth v := by
  induction h with
  | null => exact .null
  | boolean b => exact .boolean b
  | number hd => exact .number (hpq _ hd hp)
  | string hs => exact .string hs
  | array hitems ih =>
    rw [allNumbers, allNumbersItems_iff] at hp
    exact .array fun v hv => ih v hv (hp v hv)
  | object hnames hzero hvalues ih =>
    rw [allNumbers, allNumbersMembers_iff] at hp
    exact .object hnames hzero fun m hm => ih m hm (hp m hm)

theorem WellFormed.normal (h : WellFormed IsDouble depth v)
    (hp : allNumbers notSubnormal v = true) : WellFormed IsNormal depth v :=
  h.and (fun _ hd hp => ⟨hd, by simpa [notSubnormal] using hp⟩) hp

theorem json_parse_serialize_append (h : WellFormed IsNormal (MAX_NESTING + 1) v)
    (ht : NumberEnds t) : json_parse_string (json_serialize_to_string v ++ t) = some v := by
  rw [json_serialize_to_string, json_parse_spelled spelling_serialize h.double.1 0 ht, if_pos h.double.2]

theorem json_parse_serialize (h : WellFormed IsNormal (MAX_NESTING + 1) v) :
    json_parse_string (json_serialize_to_string v) = some v := by
  have := json_parse_serialize_append h (t := []) (by simp [NumberEnds])
  rwa [append_nil] at this

theorem mem_set_value (hm : m ∈ json_object_set_value o name v) : m = (name, v) ∨ m ∈ o := by
  induction o with
  | nil => exact .inl (by simpa [json_object_set_value] using hm)
  | cons x o ih =>
    obtain ⟨n, w⟩ := x
    simp only [json_object_set_value] at hm
    split_ifs at hm with hn
    · rcases mem_cons.mp hm with rfl | hm
      · exact .inl (by rw [hn])
      · exact .inr (mem_cons_of_mem _ hm)
    · rcases mem_cons.mp hm with rfl | hm
      · exact .inr mem_cons_self
      · exact (ih hm).imp id (mem_cons_of_mem _)

theorem nodup_set_value (h : (o.map Prod.fst).Nodup) : ((json_object_set_value o name v).map Prod.fst).Nodup := by
  induction o with
  | nil => simp [json_object_set_value]
  | cons x o ih =>
    obtain ⟨n, w⟩ := x
    rw [map_cons, nodup_cons] at h
    simp only [json_object_set_value]
    split_ifs with hn
    · exact nodup_cons.mpr h
    · refine nodup_cons.mpr ⟨?_, ih h.2⟩
      intro hmem
      obtain ⟨m, hm, heq⟩ := mem_map.mp hmem
      rcases mem_set_value hm with rfl | hm
      · exact hn heq.symm
      · exact h.1 (heq ▸ mem_map_of_mem hm)

theorem WellFormed.set_value (h : WellFormed P (depth + 1) (.object o)) (hname : 0 ∉ name)
    (hv : WellFormed P depth v) :
    WellFormed P (depth + 1) (.object (json_object_set_value o name v)) := by
  cases h with
  | object hnames hzero hvalues =>
    refine .object (nodup_set_value hnames) ?_ ?_
    · intro m hm
      rcases mem_set_value hm with rfl | hm
      · exact hname
      · exact hzero m hm
    · intro m hm
      rcases mem_set_value hm with rfl | hm
      · exact hv
      · exact hvalues m hm

@[simp]
theorem lookup_set_value (o : JsonObject) (name : Bytes) (v : JsonValue) :
    (json_object_set_value o name v).lookup name = some v := by
  induction o with
  | nil => simp [json_object_set_value]
  | cons x o ih =>
    obtain ⟨n, w⟩ := x
    simp only [json_object_set_value]
    split_ifs with hn
    · simp [hn]
    · rw [lookup_cons, beq_false_of_ne (Ne.symm hn)]
      exact ih

theorem lookup_set_value_of_ne (v : JsonValue) (h : name' ≠ name) :
    (json_object_set_value o name v).lookup name' = o.lookup name' := by
  induction o with
  | nil => simp [json_object_set_value, h]
  | cons x o ih =>
    obtain ⟨n, w⟩ := x
    simp only [json_object_set_value]
    split_ifs with hn
    · subst hn
      simp [lookup_cons, beq_false_of_ne h]
    · simp only [lookup_cons, ih]

theorem WellFormed.lookup
    (h : WellFormed P (depth + 1) (.object o)) (hv : o.lookup name = some v) : WellFormed P depth v := by
  cases h with
  | object _ _ hvalues =>
    obtain ⟨l₁, l₂, rfl, -⟩ := lookup_eq_some_iff.mp hv
    exact hvalues (name, v) (by simp)

theorem not_mem_zero_get_string
    (h : WellFormed P (depth + 1) (.object o)) (hs : json_object_get_string (some o) name = some s) : 0 ∉ s := by
  rw [json_object_get_string, json_object_get_value, Option.bind_some] at hs
  split at hs
  · next x hx =>
    cases hs
    cases h.lookup hx with
    | string hs => exact hs
  · cases hs

end Retrace.Parson
