import Retrace.CLib.CString
import Mathlib.Data.List.TakeWhile

/-!
# Facts about C strings

What `snprintf` formats reads back: the number conversions are scanned to the number they were made
from and consist of characters that need no escape. `strstr` finds the first occurrence.
-/

namespace CLib

open List

@[simp]
theorem plain_cons (c : UInt8) (s : Bytes) : Plain (c :: s) ↔ plainChar c = true ∧ Plain s := by
  simp [Plain]

@[simp]
theorem plain_append (s t : Bytes) : Plain (s ++ t) ↔ Plain s ∧ Plain t := by
  simp [Plain, or_imp, forall_and]

theorem Plain.take (hs : Plain s) (n : Nat) : Plain (s.take n) :=
  fun c hc => hs c (mem_of_mem_take hc)

theorem plainChar_ne_zero (hc : plainChar c = true) : c ≠ 0 := by
  rintro rfl; exact absurd hc (by decide)

theorem plainChar_ne_newline (hc : plainChar c = true) : c ≠ newline := by
  rintro rfl; exact absurd hc (by decide)

theorem plainChar_ne_dquote (hc : plainChar c = true) : c ≠ dquote := by
  rintro rfl; exact absurd hc (by decide)

theorem plainChar_ne_backslash (hc : plainChar c = true) : c ≠ backslash := by
  rintro rfl; exact absurd hc (by decide)

theorem plainChar_ge (hc : plainChar c = true) : ¬ c < 32 := by
  simp only [plainChar, Bool.and_eq_true, decide_eq_true_eq] at hc
  exact UInt8.not_lt.mpr hc.1.1

@[simp]
theorem inline_nil : Inline [] := by simp [Inline]

@[simp]
theorem inline_cons (c : UInt8) (s : Bytes) : Inline (c :: s) ↔ (c ≠ newline ∧ c ≠ 0) ∧ Inline s := by
  simp [Inline]

@[simp]
theorem inline_append (s t : Bytes) : Inline (s ++ t) ↔ Inline s ∧ Inline t :=
  forall_mem_append

theorem Plain.inline (hs : Plain s) : Inline s :=
  fun c hc => ⟨plainChar_ne_newline (hs c hc), plainChar_ne_zero (hs c hc)⟩

theorem Inline.not_mem_newline (hs : Inline s) : newline ∉ s := fun h => (hs _ h).1 rfl

theorem Inline.not_mem_zero (hs : Inline s) : 0 ∉ s := fun h => (hs _ h).2 rfl

theorem cstr_eq_self (hs : 0 ∉ s) : cstr s = s := by
  rw [cstr, takeWhile_eq_self_iff]
  intro c hc
  simpa using fun h0 : c = 0 => hs (h0 ▸ hc)

theorem Plain.not_mem_dquote (hs : Plain s) : dquote ∉ s :=
  fun h => plainChar_ne_dquote (hs _ h) rfl

theorem Inline.cstr (hs : Inline s) : cstr s = s := cstr_eq_self hs.not_mem_zero

theorem Plain.cstr (hs : Plain s) : CLib.cstr s = s := hs.inline.cstr

theorem forall_modify {P : α → Prop} {l : List α} (h : ∀ x ∈ l, P x)
    (hf : ∀ x ∈ l, l[i]? = some x → P (f x)) : ∀ x ∈ l.modify i f, P x := by
  intro x hx
  obtain ⟨k, hk⟩ := getElem?_of_mem hx
  rw [getElem?_modify] at hk
  obtain ⟨y, hy, rfl⟩ := Option.map_eq_some_iff.mp hk
  split_ifs with hik
  · exact hf y (mem_of_getElem? hy) (hik ▸ hy)
  · exact h y (mem_of_getElem? hy)

theorem not_mem_zero_cstr (s : Bytes) : 0 ∉ cstr s := by
  intro h
  simpa using mem_takeWhile_imp h

theorem cstr_length_le (s : Bytes) : (cstr s).length ≤ s.length :=
  (takeWhile_sublist _).length_le

theorem snprintf_eq_self (hs : s.length < cap) : snprintf cap s = s :=
  take_of_length_le (by omega)

theorem snprintf_length_le (cap : Nat) (s : Bytes) : (snprintf cap s).length ≤ cap - 1 := by
  simp [snprintf]

theorem snprintf_length_lt (hcap : 0 < cap) (hn : cap ≤ n) (s : Bytes) : (snprintf cap s).length < n := by
  have := snprintf_length_le cap s
  omega

theorem Plain.snprintf (hs : Plain s) (cap : Nat) : Plain (snprintf cap s) := hs.take _

theorem not_mem_zero_snprintf (hs : 0 ∉ s) (cap : Nat) : 0 ∉ snprintf cap s :=
  fun h => hs (mem_of_mem_take h)

theorem hexDigit_spec : ∀ d < 16, hexval (hexDigit d) = d ∧ isxdigit (hexDigit d) = true ∧
    plainChar (hexDigit d) = true ∧ isspace (hexDigit d) = false ∧ hexDigit d ≠ 45 ∧
    hexDigit d ≠ 43 ∧ tolower (hexDigit d) ≠ 120 := by
  decide

theorem decDigit_spec : ∀ d < 10, hexval (decDigit d) = d ∧ isdigit (decDigit d) = true := by
  decide

theorem isdigit_iff : isdigit c = true ↔ 48 ≤ c.toNat ∧ c.toNat ≤ 57 := by
  simp [isdigit, UInt8.le_iff_toNat_le]

theorem plainChar_of_isdigit (hc : isdigit c = true) : plainChar c = true := by
  obtain ⟨h1, h2⟩ := isdigit_iff.mp hc
  have hq : dquote.toNat = 34 := rfl
  have hb : backslash.toNat = 92 := rfl
  simp only [plainChar, ne_eq, Bool.and_eq_true, decide_eq_true_eq, UInt8.le_iff_toNat_le,
    ← UInt8.toNat_inj, UInt8.reduceToNat]
  omega

theorem digitsVal_append (b : Nat) (s t : Bytes) :
    digitsVal b (s ++ t) = t.foldl (fun n c => n * b + hexval c) (digitsVal b s) := by
  simp [digitsVal]

@[simp]
theorem hexFixed_length (k n : Nat) : (hexFixed k n).length = k := by
  induction k generalizing n with
  | zero => rfl
  | succ k ih => simp [hexFixed, ih]

theorem mem_hexFixed (hc : c ∈ hexFixed k n) : ∃ d < 16, c = hexDigit d := by
  induction k generalizing n with
  | zero => simp [hexFixed] at hc
  | succ k ih =>
    rcases mem_append.mp hc with hc | hc
    · exact ih hc
    · exact ⟨n % 16, Nat.mod_lt _ (by norm_num), by simpa using hc⟩

theorem digitsVal_hexFixed (k n : Nat) : digitsVal 16 (hexFixed k n) = n % 16 ^ k := by
  induction k generalizing n with
  | zero => simp [hexFixed, digitsVal, Nat.mod_one]
  | succ k ih =>
    rw [hexFixed, digitsVal_append, ih]
    simp only [foldl_cons, foldl_nil, (hexDigit_spec _ (Nat.mod_lt n (by norm_num))).1]
    rw [pow_succ', Nat.mod_mul, Nat.mul_comm]
    omega

@[simp]
theorem fmtHex16_length (h : UInt64) : (fmtHex16 h).length = 16 := hexFixed_length _ _

theorem fmtHex16_plain (h : UInt64) : Plain (fmtHex16 h) := by
  intro c hc
  obtain ⟨d, hd, rfl⟩ := mem_hexFixed hc
  exact (hexDigit_spec d hd).2.2.1

theorem strtoull16_of_digits (hs : ∀ c ∈ s, ∃ d < 16, c = hexDigit d)
    (hlt : digitsVal 16 s < 2 ^ 64) : strtoull16 s = UInt64.ofNat (digitsVal 16 s) := by
  have hspace : s.dropWhile isspace = s := by
    cases s with
    | nil => rfl
    | cons c s =>
      obtain ⟨d, hd, rfl⟩ := hs c (by simp)
      simp [(hexDigit_spec d hd).2.2.2.1]
  have hsign : takeSign s = (false, s) := by
    cases s with
    | nil => rfl
    | cons c s =>
      obtain ⟨d, hd, rfl⟩ := hs c (by simp)
      simp [takeSign, (hexDigit_spec d hd).2.2.2.2.1, (hexDigit_spec d hd).2.2.2.2.2.1]
  have hprefix : dropHexPrefix s = s := by
    match s, hs with
    | [], _ => rfl
    | [_], _ => rfl
    | [_, _], _ => rfl
    | z :: x :: c :: s, hs =>
      obtain ⟨d, hd, rfl⟩ := hs x (by simp)
      simp [dropHexPrefix, (hexDigit_spec d hd).2.2.2.2.2.2]
  have htake : s.takeWhile isxdigit = s := by
    rw [takeWhile_eq_self_iff]
    intro c hc
    obtain ⟨d, hd, rfl⟩ := hs c hc
    exact (hexDigit_spec d hd).2.1
  simp only [strtoull16, hspace, hsign, hprefix, htake, if_neg (Nat.not_le.mpr hlt)]
  rfl

theorem strtoull16_fmtHex16 (h : UInt64) : strtoull16 (fmtHex16 h) = h := by
  have hval : digitsVal 16 (fmtHex16 h) = h.toNat := by
    rw [fmtHex16, digitsVal_hexFixed]
    exact Nat.mod_eq_of_lt (by simpa using h.toNat_lt)
  have hmem : ∀ c ∈ fmtHex16 h, ∃ d < 16, c = hexDigit d := fun c hc => mem_hexFixed hc
  rw [strtoull16_of_digits hmem (by rw [hval]; exact h.toNat_lt), hval, UInt64.ofNat_toNat]

theorem fmtNat_ne_nil (n : Nat) : fmtNat n ≠ [] := by
  unfold fmtNat
  split_ifs with h
  · simp
  · simpa [Nat.digits_eq_nil_iff_eq_zero] using h

theorem isdigit_of_mem_fmtNat (hc : c ∈ fmtNat n) : isdigit c = true := by
  unfold fmtNat at hc
  split_ifs at hc with h
  · obtain rfl : c = 48 := by simpa using hc
    decide
  · simp only [mem_map, mem_reverse] at hc
    obtain ⟨d, hd, rfl⟩ := hc
    exact (decDigit_spec d (Nat.digits_lt_base (by norm_num) hd)).2

theorem fmtNat_plain (n : Nat) : Plain (fmtNat n) :=
  fun _ hc => plainChar_of_isdigit (isdigit_of_mem_fmtNat hc)

theorem fmtInt_plain (n : Int) : Plain (fmtInt n) := by
  unfold fmtInt
  split_ifs with h
  · exact (plain_cons _ _).mpr ⟨by decide, fmtNat_plain _⟩
  · exact fmtNat_plain _

theorem head_fmtNat_ne (hn : n ≠ 0) : (fmtNat n).head? ≠ some 48 := by
  rw [fmtNat, if_neg hn, head?_map, head?_reverse]
  have hne : Nat.digits 10 n ≠ [] := Nat.digits_ne_nil_iff_ne_zero.mpr hn
  rw [getLast?_eq_some_getLast hne, Option.map_some]
  have h0 := Nat.getLast_digit_ne_zero 10 hn
  have hlt := Nat.digits_lt_base (b := 10) (by norm_num) (getLast_mem hne)
  generalize (Nat.digits 10 n).getLast hne = d at h0 hlt
  simp only [Option.some.injEq, ne_eq]
  interval_cases d <;> first | exact absurd rfl h0 | decide

theorem digitsVal_map (hds : ∀ d ∈ ds, hexval (digit d) = d) :
    digitsVal base (ds.reverse.map digit) = Nat.ofDigits base ds := by
  induction ds with
  | nil => rfl
  | cons d ds ih =>
    rw [reverse_cons, map_append, digitsVal_append, ih fun x hx => hds x (mem_cons_of_mem _ hx), Nat.ofDigits_cons]
    simp only [map_cons, map_nil, foldl_cons, foldl_nil, hds d mem_cons_self]
    ring

theorem digitsVal_fmtNat (n : Nat) : digitsVal 10 (fmtNat n) = n := by
  unfold fmtNat
  split_ifs with h
  · subst h; rfl
  · rw [digitsVal_map fun d hd => (decDigit_spec d (Nat.digits_lt_base (by norm_num) hd)).1, Nat.ofDigits_digits]

theorem fmtNat_length_le (hk : 0 < k) (hn : n < 10 ^ k) : (fmtNat n).length ≤ k := by
  unfold fmtNat
  split_ifs with h
  · exact hk
  · rw [length_map, length_reverse]
    exact (Nat.digits_length_le_iff (by norm_num) _).mpr hn

theorem digitsVal_fmtNat4 (n : Nat) : digitsVal 10 (fmtNat4 n) = n := by
  have hzeros : ∀ k, digitsVal 10 (replicate k 48) = 0 := by
    intro k
    induction k with
    | zero => rfl
    | succ k ih =>
      rw [replicate_succ', digitsVal_append, ih]
      rfl
  rw [fmtNat4, digitsVal_append, hzeros]
  exact digitsVal_fmtNat n

theorem fmtNat4_plain (n : Nat) : Plain (fmtNat4 n) := by
  rw [fmtNat4, plain_append]
  refine ⟨fun c hc => ?_, fmtNat_plain n⟩
  rw [eq_of_mem_replicate hc]
  decide

theorem fmtNat4_length (hn : n < 10000) : (fmtNat4 n).length = 4 := by
  have := fmtNat_length_le (n := n) (k := 4) (by norm_num) (by omega)
  simp [fmtNat4]
  omega

theorem strstr_skip (ha : q ∉ a) (s needle : Bytes) : strstr (a ++ s) (q :: needle) = strstr s (q :: needle) := by
  induction a with
  | nil => rfl
  | cons c a ih =>
    have hc : q ≠ c := fun h => ha (h ▸ mem_cons_self)
    rw [cons_append, strstr, if_neg (by simp [hc])]
    exact ih fun h => ha (mem_cons_of_mem _ h)

theorem strstr_self (needle s : Bytes) : strstr (needle ++ s) needle = some (needle ++ s) := by
  cases needle with
  | nil => cases s <;> simp [strstr]
  | cons c n => simp [strstr, isPrefixOf_iff_prefix]

theorem strstr_cons_of_not (h : ¬ needle <+: c :: s) : strstr (c :: s) needle = strstr s needle := by
  rw [strstr, if_neg (by simpa [ isPrefixOf_iff_prefix] using h)]

theorem takeWhile_dquote (ha : dquote ∉ a) (s : Bytes) : (a ++ dquote :: s).takeWhile (· ≠ dquote) = a := by
  rw [takeWhile_append_of_pos fun c hc => by simpa using fun h : c = dquote => ha (h ▸ hc)]
  simp

theorem not_prefix_quoted (hw : dquote ∉ w) (ha : dquote ∉ a)
    (hxy : x ≠ y) : ¬ dquote :: (w ++ dquote :: x :: t) <+: dquote :: (a ++ dquote :: y :: s) := by
  rintro ⟨r, hr⟩
  rw [cons_append, List.cons.injEq, append_assoc, cons_append] at hr
  have hwa : w = a := by
    have := congrArg (List.takeWhile (· ≠ dquote)) hr.2
    rwa [takeWhile_dquote hw, takeWhile_dquote ha] at this
  subst hwa
  simp only [append_cancel_left_eq, cons_append, List.cons.injEq] at hr
  exact hxy hr.2.2.1

theorem prefix_of_strstr (h : strstr s needle = some r) : needle <+: r := by
  induction s with
  | nil =>
    rw [strstr] at h
    split_ifs at h with hnil
    exact hnil ▸ nil_prefix
  | cons c s ih =>
    rw [strstr] at h
    split_ifs at h with hp
    · cases h
      exact isPrefixOf_iff_prefix.mp hp
    · exact ih h

theorem strstr_skip_pieces (hw : dquote ∉ w) (ps : List Bytes) (u : Bytes) (hps : ∀ p ∈ ps, dquote ∉ p ∧ p ≠ w) :
    strstr (ps.flatMap (dquote :: ·) ++ dquote :: u) (dquote :: (w ++ dquote :: t)) =
      strstr (dquote :: u) (dquote :: (w ++ dquote :: t)) := by
  induction ps with
  | nil => rfl
  | cons p ps ih =>
    obtain ⟨hp, hne⟩ := hps p mem_cons_self
    -- Another piece, or the text itself, follows behind a quotation mark.
    obtain ⟨v, hv⟩ : ∃ v, ps.flatMap (dquote :: ·) ++ dquote :: u = dquote :: v := by
      cases ps with
      | nil => exact ⟨_, rfl⟩
      | cons p' ps => exact ⟨_, by rw [flatMap_cons, cons_append, cons_append]⟩
    rw [flatMap_cons, cons_append, cons_append, strstr_cons_of_not, append_assoc, strstr_skip hp]
    · exact ih fun x hx => hps x (mem_cons_of_mem _ hx)
    · rintro ⟨r, hr⟩
      rw [append_assoc, hv, cons_append, List.cons.injEq, append_assoc, cons_append] at hr
      have h := congrArg (takeWhile (· ≠ dquote)) hr.2
      rw [takeWhile_dquote hw, takeWhile_dquote hp] at h
      exact hne h.symm

theorem strstr_append_of_eq_some (h : strstr s needle = some r) (t : Bytes) :
    strstr (s ++ t) needle = some (r ++ t) ∧ needle.length ≤ s.length := by
  induction s with
  | nil =>
    obtain rfl : needle = [] := by
      by_contra hne
      simp [strstr, hne] at h
    obtain rfl : [] = r := by simpa [strstr] using h
    exact ⟨strstr_self [] t, le_refl _⟩
  | cons c s ih =>
    by_cases hp : needle <+: c :: s
    · rw [strstr, if_pos (by simpa [ isPrefixOf_iff_prefix] using hp)] at h
      obtain rfl : c :: s = r := by simpa using h
      have hpt : needle <+: c :: (s ++ t) := hp.trans (prefix_append (c :: s) t)
      rw [cons_append, strstr, if_pos (by simpa [ isPrefixOf_iff_prefix] using hpt)]
      exact ⟨rfl, hp.length_le⟩
    · rw [strstr_cons_of_not hp] at h
      obtain ⟨hfound, hlen⟩ := ih h
      have hlen' : needle.length ≤ (c :: s).length := Nat.le_succ_of_le hlen
      -- An occurrence in front of the one that was found would be one in the shorter text.
      have hpt : ¬ needle <+: c :: (s ++ t) := fun hpt =>
        hp (prefix_of_prefix_length_le hpt (prefix_append (c :: s) t) hlen')
      rw [cons_append, strstr_cons_of_not hpt]
      exact ⟨hfound, hlen'⟩

theorem strstr_isSome_iff : (strstr s needle).isSome ↔ needle <:+: s := by
  induction s with
  | nil => simp [strstr, infix_nil]
  | cons c s ih =>
    by_cases h : needle <+: c :: s
    · rw [strstr, if_pos (by simpa [ isPrefixOf_iff_prefix] using h)]
      simpa using h.isInfix
    · rw [strstr_cons_of_not h, ih, infix_cons_iff]
      simp [h]

end CLib
