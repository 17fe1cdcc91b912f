import Retrace.CLib.Proofs.DoubleProofs
import Retrace.CLib.Proofs.StrtodProofs

/-!
# A printed double is read back

`%.17g` writes 17 digits, which is enough to tell doubles apart, so `strtod` returns the double that
was printed. It reports no range error unless the double is subnormal.
-/

namespace CLib

open List

variable {frac int s u : Bytes} {b n : Nat} {c : UInt8} {e : ℤ}

def decimal17 (a : ℚ) : ℚ := (digits17 a).1 * 10 ^ ((digits17 a).2 - 16)

theorem digits17_spec {a : ℚ} (ha : 0 < a) :
    10 ^ 16 ≤ (digits17 a).1 ∧ (digits17 a).1 < 10 ^ 17 ∧ |decimal17 a - a| ≤ a / (2 * 10 ^ 16) := by
  generalize hx : Int.log 10 a = x
  have hpos : (0 : ℚ) < 10 ^ (x - 16) := zpow_pos (by norm_num) _
  have hle : (10 : ℚ) ^ (16 : ℤ) * 10 ^ (x - 16) ≤ a := by
    rw [← zpow_add₀ (by norm_num), show (16 : ℤ) + (x - 16) = x by ring, ← hx]
    exact_mod_cast Int.zpow_log_le_self (by norm_num) ha
  have hlt : a < (10 : ℚ) ^ (17 : ℤ) * 10 ^ (x - 16) := by
    rw [← zpow_add₀ (by norm_num), show (17 : ℤ) + (x - 16) = x + 1 by ring, ← hx]
    exact_mod_cast Int.lt_zpow_succ_log_self (by norm_num) a
  obtain ⟨y, rfl⟩ : ∃ y, a = y * 10 ^ (x - 16) := ⟨a / 10 ^ (x - 16), by field_simp⟩
  have hy1 : ((10 ^ 16 : ℤ) : ℚ) ≤ y := by
    have := le_of_mul_le_mul_right hle hpos
    exact_mod_cast this
  have hy2 : y ≤ ((10 ^ 17 : ℤ) : ℚ) := by
    have := (lt_of_mul_lt_mul_right hlt hpos.le).le
    exact_mod_cast this
  have hr1 := le_roundHalfEven hy1
  have hr2 := roundHalfEven_le hy2
  have hdist := roundHalfEven_bounds y
  have hm : ((roundHalfEven y).toNat : ℤ) = roundHalfEven y := Int.toNat_of_nonneg (by omega)
  have hmq : ((roundHalfEven y).toNat : ℚ) = roundHalfEven y := by exact_mod_cast hm
  have hdigits : digits17 (y * 10 ^ (x - 16)) =
      if (roundHalfEven y).toNat = 10 ^ 17 then (10 ^ 16, x + 1) else ((roundHalfEven y).toNat, x) := by
    simp only [digits17, hx, mul_div_assoc, div_self hpos.ne', mul_one]
  have hvalue : decimal17 (y * 10 ^ (x - 16)) = roundHalfEven y * 10 ^ (x - 16) := by
    rw [decimal17, hdigits]
    split_ifs with hcarry
    · rw [← hmq, hcarry, show x + 1 - 16 = (x - 16) + 1 by ring, zpow_add_one₀ (by norm_num)]
      push_cast
      ring
    · rw [hmq]
  refine ⟨?_, ?_, ?_⟩
  · rw [hdigits]
    split_ifs
    · exact le_refl _
    · show 10 ^ 16 ≤ (roundHalfEven y).toNat
      omega
  · rw [hdigits]
    split_ifs with hcarry
    · norm_num
    · show (roundHalfEven y).toNat < 10 ^ 17
      omega
  · rw [hvalue, ← sub_mul, abs_mul, abs_of_pos hpos, mul_div_right_comm]
    refine mul_le_mul_of_nonneg_right (hdist.trans ?_) hpos.le
    push_cast at hy1
    rw [div_le_div_iff₀ (by norm_num) (by norm_num)]
    linarith

theorem two_zpow_min : (2 : ℚ) ^ (-1022 : ℤ) = ((2 ^ 1022 : ℕ) : ℚ)⁻¹ := by
  rw [zpow_neg, Nat.cast_pow, Nat.cast_ofNat, ← zpow_natCast, Nat.cast_ofNat]

theorem roundHalfEven_div (hb : 0 < b) (h1 : 2 * a < (2 * n + 1) * b)
    (h2 : 2 * n * b < 2 * a + b) : roundHalfEven ((a : ℚ) / b) = n := by
  have hb' : (0 : ℚ) < b := Nat.cast_pos.mpr hb
  have h1' : (2 : ℚ) * a < (2 * n + 1) * b := by exact_mod_cast h1
  have h2' : (2 : ℚ) * n * b < 2 * a + b := by exact_mod_cast h2
  apply roundHalfEven_eq
  rw [Int.cast_natCast, abs_sub_lt_iff, sub_lt_iff_lt_add, sub_lt_comm, div_lt_iff₀ hb', lt_div_iff₀ hb']
  constructor
  · linarith
  · linarith

theorem le_decimal17_min : (2 : ℚ) ^ (-1022 : ℤ) ≤ decimal17 (2 ^ (-1022 : ℤ)) := by
  have hpos : (0 : ℚ) < ((2 ^ 1022 : ℕ) : ℚ) := Nat.cast_pos.mpr (Nat.pow_pos two_pos)
  have hten : ∀ n : Nat, (10 : ℚ) ^ (-(n : ℤ)) = ((10 ^ n : ℕ) : ℚ)⁻¹ := fun n => by
    rw [zpow_neg, zpow_natCast, Nat.cast_pow, Nat.cast_ofNat]
  have hten0 : ∀ n : Nat, (0 : ℚ) < ((10 ^ n : ℕ) : ℚ) := fun n => Nat.cast_pos.mpr (Nat.pow_pos (by norm_num))
  rw [two_zpow_min]
  have hlog : Int.log 10 ((2 ^ 1022 : ℕ) : ℚ)⁻¹ = -308 := by
    apply le_antisymm
    · refine Int.lt_add_one_iff.mp ((Int.lt_zpow_iff_log_lt (by norm_num) (inv_pos.mpr hpos)).mp ?_)
      rw [Nat.cast_ofNat, show (-308 : ℤ) + 1 = -((307 : ℕ) : ℤ) by norm_num, hten,
        inv_lt_inv₀ hpos (hten0 _), Nat.cast_lt]
      decide +kernel
    · rw [← Int.zpow_le_iff_le_log (by norm_num) (inv_pos.mpr hpos), Nat.cast_ofNat,
        show (-308 : ℤ) = -((308 : ℕ) : ℤ) by norm_num, hten, inv_le_inv₀ (hten0 _) hpos, Nat.cast_le]
      decide +kernel
  have hscale : ((2 ^ 1022 : ℕ) : ℚ)⁻¹ / 10 ^ ((-308 : ℤ) - 16) = ((10 ^ 324 : ℕ) : ℚ) / ((2 ^ 1022 : ℕ) : ℚ) := by
    rw [show (-308 : ℤ) - 16 = -((324 : ℕ) : ℤ) by norm_num, hten, div_inv_eq_mul, mul_comm, div_eq_mul_inv]
  have hround : roundHalfEven (((10 ^ 324 : ℕ) : ℚ) / ((2 ^ 1022 : ℕ) : ℚ)) = (22250738585072014 : ℕ) :=
    roundHalfEven_div (Nat.pow_pos two_pos) (by decide +kernel) (by decide +kernel)
  have hdigits : digits17 ((2 ^ 1022 : ℕ) : ℚ)⁻¹ = (22250738585072014, -308) := by
    simp only [digits17, hlog, hscale, hround]
    rfl
  rw [decimal17, hdigits, show (-308 : ℤ) - 16 = -((324 : ℕ) : ℤ) by norm_num, hten, ← div_eq_mul_inv,
    le_div_iff₀ (hten0 _), inv_mul_le_iff₀ hpos, ← Nat.cast_mul, Nat.cast_le]
  decide +kernel

theorem decimal17_range (h : IsNormal q) (hq : 0 < q) :
    2 ^ (-1022 : ℤ) ≤ decimal17 q ∧ decimal17 q < 2 ^ (1024 : ℤ) - 2 ^ (970 : ℤ) := by
  obtain ⟨m, k, hm, hm', hk, hk', hmk⟩ := h.mantissa hq
  obtain ⟨-, -, hnear⟩ := digits17_spec hq
  obtain ⟨h1, h2⟩ := abs_le.mp hnear
  have hmq' : (m : ℚ) ≤ 2 ^ 53 - 1 := by exact_mod_cast (by omega : m ≤ 2 ^ 53 - 1)
  constructor
  · by_cases hmin : q = 2 ^ (-1022 : ℤ)
    · rw [hmin]
      exact le_decimal17_min
    · -- the next double is far enough above
      obtain ⟨d, hd⟩ := Int.eq_ofNat_of_zero_le (by omega : 0 ≤ k + 1074)
      have hscale : q = (m * 2 ^ d : ℤ) * 2 ^ (-1074 : ℤ) := by
        rw [hmk, show k = (d : ℤ) + -1074 by omega, zpow_add₀ two_ne_zero, zpow_natCast]
        push_cast
        ring
      have hmin' : (2 : ℚ) ^ (-1022 : ℤ) = (2 ^ 52 : ℤ) * 2 ^ (-1074 : ℤ) := by
        rw [show (-1022 : ℤ) = ((52 : ℕ) : ℤ) + -1074 by norm_num, zpow_add₀ two_ne_zero, zpow_natCast]
        push_cast
        ring
      generalize m * 2 ^ d = y at hscale
      have hpos := two_zpow_pos (-1074)
      have hy : (2 ^ 52 : ℤ) < y := by
        have hle := h.normal.resolve_left hq.ne'
        rw [abs_of_pos hq] at hle
        have hlt := lt_of_le_of_ne hle (Ne.symm hmin)
        rw [hmin', hscale] at hlt
        exact_mod_cast lt_of_mul_lt_mul_right hlt hpos.le
      have hy' : (2 : ℚ) ^ 52 + 1 ≤ y := by exact_mod_cast (by omega : (2 : ℤ) ^ 52 + 1 ≤ y)
      rw [hmin', Int.cast_pow, Int.cast_ofNat]
      have hle : ((2 : ℚ) ^ 52 + 1) * 2 ^ (-1074 : ℤ) ≤ q := by
        rw [hscale]
        exact mul_le_mul_of_nonneg_right hy' hpos.le
      clear hmin' hscale hmin
      generalize (2 : ℚ) ^ (-1074 : ℤ) = u at hpos hle ⊢
      linarith only [h1, hle, hpos]
  · have h970 : (2 : ℚ) ^ (1024 : ℤ) - 2 ^ (970 : ℤ) = (2 ^ 53 - 1 / 2) * 2 ^ (971 : ℤ) := by
      rw [show (971 : ℤ) = 970 + 1 by norm_num, zpow_add_one₀ two_ne_zero,
        show (1024 : ℤ) = ((54 : ℕ) : ℤ) + 970 by norm_num, zpow_add₀ two_ne_zero, zpow_natCast]
      ring
    have hpos := two_zpow_pos 971
    have hle : q ≤ (2 ^ 53 - 1) * 2 ^ (971 : ℤ) := by
      rw [hmk]
      exact mul_le_mul hmq' (zpow_le_zpow_right₀ one_le_two hk') (two_zpow_pos _).le (by norm_num)
    rw [h970]
    clear h970
    generalize (2 : ℚ) ^ (971 : ℤ) = u at hpos hle ⊢
    linarith only [h2, hle, hpos]

theorem rangeError_of_range {num den : Nat} (hden : 0 < den) (hx : (num : ℚ) / den = x)
    (hlow : 2 ^ (-1022 : ℤ) ≤ x) (hhigh : x < 2 ^ (1024 : ℤ) - 2 ^ (970 : ℤ)) : rangeError num den = false := by
  have hden' : (0 : ℚ) < den := Nat.cast_pos.mpr hden
  have hnum : (num : ℚ) = x * den := by
    rw [← hx]
    field_simp
  simp only [rangeError, Bool.or_eq_false_iff, decide_eq_false_iff_not, not_le, not_and]
  constructor
  · have hcast : ((2 ^ 1024 - 2 ^ 970 : ℕ) : ℚ) = 2 ^ (1024 : ℤ) - 2 ^ (970 : ℤ) := by
      rw [Nat.cast_sub (Nat.pow_le_pow_right two_pos (by norm_num)), Nat.cast_pow, Nat.cast_pow,
        Nat.cast_ofNat, ← zpow_natCast, ← zpow_natCast, Nat.cast_ofNat, Nat.cast_ofNat]
    rw [← Nat.cast_lt (α := ℚ), Nat.cast_mul, hcast, hnum]
    exact mul_lt_mul_of_pos_right hhigh hden'
  · intro _ hsmall
    exfalso
    rw [← Nat.cast_lt (α := ℚ), Nat.cast_mul, hnum, mul_right_comm] at hsmall
    have h1 : x * ((2 ^ 1022 : ℕ) : ℚ) < 1 := by
      by_contra hge
      exact absurd hsmall (not_lt.mpr (le_mul_of_one_le_left hden'.le (not_lt.mp hge)))
    rw [two_zpow_min] at hlow
    have hpos : (0 : ℚ) < ((2 ^ 1022 : ℕ) : ℚ) := Nat.cast_pos.mpr (Nat.pow_pos two_pos)
    rw [inv_le_iff_one_le_mul₀ hpos] at hlow
    exact absurd h1 (not_lt.mpr hlow)

def Digits (s : Bytes) : Prop := ∀ c ∈ s, isdigit c = true

theorem Digits.takeWhile (hs : Digits s) (hu : ∀ c ∈ u.head?, isdigit c = false) :
    (s ++ u).takeWhile isdigit = s ∧ (s ++ u).dropWhile isdigit = u := by
  have h1 : u.takeWhile isdigit = [] ∧ u.dropWhile isdigit = u := by
    cases u with
    | nil => simp
    | cons c u => simp [hu c (by simp)]
  have h2 : s.takeWhile isdigit = s := takeWhile_eq_self_iff.mpr hs
  have h3 : s.dropWhile isdigit = [] := dropWhile_eq_nil_iff.mpr hs
  rw [takeWhile_append, dropWhile_append, h1.1, h1.2, h2, h3]
  simp

theorem digitsVal_foldl (b n : Nat) (t : Bytes) :
    t.foldl (fun n c => n * b + hexval c) n = n * b ^ t.length + digitsVal b t := by
  induction t generalizing n with
  | nil => simp [digitsVal]
  | cons c t ih =>
    have h := ih (0 * b + hexval c)
    rw [digitsVal, foldl_cons, foldl_cons, ih, h, length_cons, pow_succ']
    ring

theorem digitsVal_replicate : digitsVal 10 (s ++ replicate z 48) = digitsVal 10 s * 10 ^ z := by
  induction z with
  | zero => simp
  | succ z ih =>
    rw [replicate_succ', ← append_assoc, digitsVal_append, ih]
    simp only [foldl_cons, foldl_nil, show hexval 48 = 0 from rfl, add_zero, pow_succ, mul_assoc]

theorem stripZeros_append (s : Bytes) : ∃ z, s = stripZeros s ++ replicate z 48 := by
  refine ⟨(s.reverse.takeWhile (· = 48)).length, ?_⟩
  have hall : s.reverse.takeWhile (· = 48) = replicate (s.reverse.takeWhile (· = 48)).length 48 := by
    refine eq_replicate_iff.mpr ⟨rfl, fun c hc => ?_⟩
    simpa using mem_takeWhile_imp hc
  have hsplit := congrArg List.reverse (takeWhile_append_dropWhile (p := (· = 48)) (l := s.reverse))
  rw [reverse_append, reverse_reverse, hall, reverse_replicate] at hsplit
  exact hsplit.symm

theorem Digits.stripZeros (hs : Digits s) : Digits (stripZeros s) := by
  obtain ⟨z, hz⟩ := stripZeros_append s
  intro c hc
  exact hs c (by rw [hz]; exact mem_append_left _ hc)

def ExponentText (u : Bytes) (e : ℤ) : Prop := (u = [] ∧ e = 0) ∨ u = fmtExponent e

theorem ExponentText.scan (hu : ExponentText u e) : scanExponent 101 u = (e, u.length) := by
  rcases hu with ⟨rfl, rfl⟩ | rfl
  · rfl
  · have hds : Digits ((if e.natAbs < 10 then [48] else []) ++ fmtNat e.natAbs) := by
      intro c hc
      rcases mem_append.mp hc with hc | hc
      · split_ifs at hc
        · rw [mem_singleton.mp hc]
          rfl
        · simp at hc
      · exact isdigit_of_mem_fmtNat hc
    have hval : digitsVal 10 ((if e.natAbs < 10 then [48] else []) ++ fmtNat e.natAbs) = e.natAbs := by
      rw [digitsVal_append, digitsVal_foldl, digitsVal_fmtNat]
      split_ifs <;> simp [digitsVal, hexval, isdigit]
    have hne : (if e.natAbs < 10 then [48] else []) ++ fmtNat e.natAbs ≠ [] := by
      simp [fmtNat_ne_nil]
    rw [fmtExponent]
    generalize (if e.natAbs < 10 then [48] else []) ++ fmtNat e.natAbs = ds at hds hval hne
    have htake : ds.takeWhile isdigit = ds := takeWhile_eq_self_iff.mpr hds
    have hsign : takeSign ((if e < 0 then 45 else 43) :: ds) = (decide (e < 0), ds) := by
      split_ifs with hneg <;> simp [takeSign, hneg]
    have he : (if decide (e < 0) = true then -(e.natAbs : ℤ) else e.natAbs) = e := by
      simp only [decide_eq_true_eq]
      split_ifs <;> omega
    have hmarker : tolower 101 = 101 := rfl
    simp only [scanExponent, hsign, htake, hmarker, hne, ne_eq, not_false_eq_true, and_self, if_true, hval, he,
      length_cons, Prod.mk.injEq, true_and]
    omega

theorem ExponentText.head (hu : ExponentText u e) : ∀ c ∈ u.head?, c = 101 := by
  rcases hu with ⟨rfl, -⟩ | rfl
  · simp
  · simp [fmtExponent]

theorem scanMantissa_pointed (hint : Digits int) (hne : int ≠ []) (hfrac : Digits frac) (hu : ExponentText u e) :
    scanMantissa isdigit (pointed int frac ++ u) = (int, stripZeros frac, (pointed int frac).length) := by
  have hend : ∀ c ∈ u.head?, isdigit c = false := fun c hc => by
    rw [hu.head c hc]
    rfl
  unfold pointed
  split_ifs with hnil
  · obtain ⟨htake, hdrop⟩ := hint.takeWhile hend
    rw [append_nil, scanMantissa, htake, hdrop, hnil]
    cases u with
    | nil => rfl
    | cons c u =>
      have hc : c ≠ 46 := by
        rw [hu.head c (by simp)]
        decide
      simp [hc]
  · obtain ⟨htake, hdrop⟩ := hint.takeWhile (u := 46 :: stripZeros frac ++ u) (by simp; rfl)
    obtain ⟨htake', hdrop'⟩ := hfrac.stripZeros.takeWhile hend
    rw [append_assoc, scanMantissa, htake, hdrop]
    simp only [cons_append, htake', hne, ne_eq, not_false_eq_true, true_or, and_self, if_true]
    simp only [length_append, length_cons, Prod.mk.injEq, true_and]
    omega

theorem scaled_value (hb : 0 < b) : ((scaled m b e).1 : ℚ) / (scaled m b e).2 = m * b ^ e := by
  have hb' : (b : ℚ) ≠ 0 := by exact_mod_cast hb.ne'
  simp only [scaled, Nat.cast_mul, Nat.cast_pow]
  rcases le_or_gt 0 e with he | he
  · obtain ⟨n, rfl⟩ := Int.eq_ofNat_of_zero_le he
    simp
  · obtain ⟨n, rfl⟩ : ∃ n : ℕ, e = -(n : ℤ) := ⟨(-e).toNat, by omega⟩
    simp [div_eq_mul_inv]

theorem scaled_den_pos (hb : 0 < b) : 0 < (scaled m b e).2 :=
  Nat.pow_pos hb

def textValue (int frac : Bytes) (e : ℤ) : ℚ := digitsVal 10 (int ++ frac) * 10 ^ (e - frac.length)

theorem textValue_stripZeros : textValue int (stripZeros frac) e = textValue int frac e := by
  obtain ⟨z, hz⟩ := stripZeros_append frac
  have hlen := congrArg List.length hz
  rw [length_append, length_replicate] at hlen
  have hval : digitsVal 10 (int ++ frac) = digitsVal 10 (int ++ stripZeros frac) * 10 ^ z := by
    conv_lhs => rw [hz, ← append_assoc]
    exact digitsVal_replicate
  rw [textValue, textValue, hval, hlen]
  push_cast
  rw [show e - ((stripZeros frac).length : ℤ) = z + (e - ((stripZeros frac).length + z)) by ring,
    zpow_add₀ (by norm_num), zpow_natCast]
  ring

theorem scanNumber_pointed (hint : Digits int) (hne : int ≠ [])
    (hfrac : Digits frac) (hu : ExponentText u e) (neg : Bool) (skip : Nat) :
    ∃ num den : Nat, 0 < den ∧ (num : ℚ) / den = textValue int frac e ∧
      scanNumber isdigit 10 10 1 101 neg skip (pointed int frac ++ u) =
        ⟨some (roundDouble (if neg then -textValue int frac e else textValue int frac e)),
          skip + (pointed int frac ++ u).length, rangeError num den⟩ := by
  have hlen : (pointed int frac).length ≠ 0 := by
    simp [pointed, hne]
  generalize hsc : scaled (digitsVal 10 (int ++ stripZeros frac)) 10 (e - (stripZeros frac).length) = sc
  have hden : 0 < sc.2 := hsc ▸ scaled_den_pos (by norm_num)
  have hval : (sc.1 : ℚ) / sc.2 = textValue int frac e := by
    rw [← hsc, scaled_value (by norm_num), ← textValue_stripZeros, textValue, Nat.cast_ofNat]
  refine ⟨sc.1, sc.2, hden, hval, ?_⟩
  simp only [scanNumber, scanMantissa_pointed hint hne hfrac hu, if_neg hlen, drop_left, hu.scan,
    Nat.cast_one, one_mul, hsc, hval, length_append, Nat.add_assoc]

def decChar (c : UInt8) : Bool := isdigit c || c == 46 || c == 101 || c == 43 || c == 45

theorem decChar_spec (hc : decChar c = true) : tolower c = c ∧ numChar c = true := by
  simp only [decChar, Bool.or_eq_true, beq_iff_eq] at hc
  obtain (((hd | rfl) | rfl) | rfl) | rfl := hc
  · exact ⟨tolower_of_isdigit hd, numChar_of_isdigit hd⟩
  · decide
  · decide
  · decide
  · decide

theorem decChar_of_isdigit (hc : isdigit c = true) : decChar c = true := by simp [decChar, hc]

theorem not_isPrefixOf_decChar {p : Bytes} (hs : ∀ c ∈ s, decChar c = true) (hd : d ∈ p)
    (hd' : decChar d = false) : p.isPrefixOf (s.map tolower) = false := by
  rw [← Bool.not_eq_true, isPrefixOf_iff_prefix]
  intro hp
  obtain ⟨c, hc, rfl⟩ := mem_map.mp (hp.subset hd)
  rw [(decChar_spec (hs c hc)).1, hs c hc] at hd'
  cases hd'

theorem ExponentText.decChar (hu : ExponentText u e) : ∀ c ∈ u, decChar c = true := by
  rcases hu with ⟨rfl, -⟩ | rfl
  · simp
  · intro c hc
    simp only [fmtExponent, mem_cons, mem_append] at hc
    rcases hc with rfl | rfl | hc | hc
    · rfl
    · split_ifs <;> rfl
    · split_ifs at hc
      · rw [mem_singleton.mp hc]
        rfl
      · simp at hc
    · exact decChar_of_isdigit (isdigit_of_mem_fmtNat hc)

theorem decChar_pointed (hint : Digits int) (hfrac : Digits frac) : ∀ c ∈ pointed int frac, decChar c = true := by
  intro c hc
  unfold pointed at hc
  split_ifs at hc
  · exact decChar_of_isdigit (hint c (by simpa using hc))
  · rcases mem_append.mp hc with hc | hc
    · exact decChar_of_isdigit (hint c hc)
    · rcases mem_cons.mp hc with rfl | hc
      · rfl
      · exact decChar_of_isdigit (hfrac.stripZeros c hc)

theorem strtodRun_pointed {r : Bytes} (hint : Digits int) (hne : int ≠ [])
    (hfrac : Digits frac) (hu : ExponentText u e) (hsign : takeSign r = (neg, pointed int frac ++ u)) :
    ∃ num den : Nat, 0 < den ∧ (num : ℚ) / den = textValue int frac e ∧
      strtodRun r = ⟨some (roundDouble (if neg then -textValue int frac e else textValue int frac e)),
        r.length, rangeError num den⟩ := by
  have hchars : ∀ c ∈ pointed int frac ++ u, decChar c = true := fun c hc =>
    (mem_append.mp hc).elim (decChar_pointed hint hfrac c) (hu.decChar c)
  have hlen := takeSign_length r
  rw [hsign] at hlen
  obtain ⟨num, den, hden, hval, hscan⟩ :=
    scanNumber_pointed hint hne hfrac hu neg (r.length - (pointed int frac ++ u).length)
  refine ⟨num, den, hden, hval, ?_⟩
  have h1 := not_isPrefixOf_decChar (p := bytes "infinity") (d := 105) hchars (by decide) (by decide)
  have h2 := not_isPrefixOf_decChar (p := bytes "inf") (d := 105) hchars (by decide) (by decide)
  have h3 := not_isPrefixOf_decChar (p := bytes "nan") (d := 110) hchars (by decide) (by decide)
  have h4 := not_isPrefixOf_decChar (p := bytes "0x") (d := 120) hchars (by decide) (by decide)
  simp only [strtodRun, hsign, h1, h2, h3, h4, Bool.false_eq_true, false_and, if_false, hscan]
  rw [Nat.sub_add_cancel hlen]

theorem fmtNat_length_eq (h : 10 ^ k ≤ n) (h' : n < 10 ^ (k + 1)) : (fmtNat n).length = k + 1 := by
  have hpos : n ≠ 0 := by
    have := Nat.pow_pos (n := k) (by norm_num : 0 < 10)
    omega
  apply le_antisymm
  · exact fmtNat_length_le (by omega) h'
  · rw [fmtNat, if_neg hpos, length_map, length_reverse]
    exact (Nat.lt_digits_length_iff (by norm_num) n).mpr h

theorem fmtG17Pos_text (ha : 0 < a) : ∃ int frac u e, fmtG17Pos a = pointed int frac ++ u ∧
    Digits int ∧ int ≠ [] ∧ Digits frac ∧ ExponentText u e ∧ textValue int frac e = decimal17 a ∧
    (int.head? = some 48 → int = [48] ∧ stripZeros frac ≠ []) := by
  obtain ⟨hm, hm', -⟩ := digits17_spec ha
  unfold fmtG17Pos decimal17
  generalize digits17 a = d at hm hm'
  obtain ⟨m, x⟩ := d
  simp only at hm hm' ⊢
  have hds : Digits (fmtNat m) := fun c hc => isdigit_of_mem_fmtNat hc
  have hlen : (fmtNat m).length = 17 := fmtNat_length_eq hm hm'
  have hhead : (fmtNat m).head? ≠ some 48 := head_fmtNat_ne (by omega)
  have hval := digitsVal_fmtNat m
  generalize fmtNat m = ds at hds hlen hhead hval
  have htake : ∀ k, Digits (ds.take k) := fun k c hc => hds c (mem_of_mem_take hc)
  have hdrop : ∀ k, Digits (ds.drop k) := fun k c hc => hds c (mem_of_mem_drop hc)
  have hhead' : ∀ k, (ds.take (k + 1)).head? ≠ some 48 := fun k => by
    cases ds with
    | nil => simp
    | cons c ds => simpa using hhead
  have hne : ∀ k, ds.take (k + 1) ≠ [] := fun k h => by
    have := congrArg List.length h
    rw [length_take, hlen, length_nil] at this
    omega
  split_ifs with h1 h2
  · obtain ⟨n, rfl⟩ := Int.eq_ofNat_of_zero_le h1.1
    refine ⟨ds.take (n + 1), ds.drop (n + 1), [], 0, by simp, htake _, hne n, hdrop _, .inl ⟨rfl, rfl⟩, ?_,
      fun h => absurd h (hhead' n)⟩
    rw [textValue, take_append_drop, hval, length_drop, hlen]
    congr 2
    omega
  · obtain ⟨n, hn⟩ : ∃ n : ℕ, x = -(n : ℤ) - 1 := ⟨(-x - 1).toNat, by omega⟩
    have hz : (-x).toNat - 1 = n := by omega
    rw [hz]
    have hzeros : Digits (replicate n 48 ++ ds) := by
      intro c hc
      rcases mem_append.mp hc with hc | hc
      · rw [eq_of_mem_replicate hc]
        rfl
      · exact hds c hc
    have hv : digitsVal 10 ([48] ++ (replicate n 48 ++ ds)) = m := by
      rw [← append_assoc, digitsVal_append, digitsVal_foldl, digitsVal_replicate, hval]
      simp [digitsVal, hexval, isdigit]
    refine ⟨[48], _, [], 0, by simp, by simp [Digits, isdigit], by simp, hzeros, .inl ⟨rfl, rfl⟩, ?_, ?_⟩
    · rw [textValue, hv, length_append, length_replicate, hlen]
      congr 2
      push_cast
      omega
    · refine fun _ => ⟨rfl, fun hnil => ?_⟩
      -- a number without digits would be zero
      obtain ⟨z, hz⟩ := stripZeros_append (replicate n 48 ++ ds)
      rw [hnil, nil_append] at hz
      rw [hz, digitsVal_replicate] at hv
      simp [digitsVal, hexval, isdigit] at hv
      omega
  · refine ⟨_, _, fmtExponent x, x, rfl, htake 1, hne 0, hdrop 1, .inr rfl, ?_, fun h => absurd h (hhead' 0)⟩
    rw [textValue, take_append_drop, hval, length_drop, hlen]
    norm_num

theorem fmtG17_text (q : ℚ) :
    ∃ neg int frac u e, fmtG17 q = (if neg then [45] else []) ++ (pointed int frac ++ u) ∧
    Digits int ∧ int ≠ [] ∧ Digits frac ∧ ExponentText u e ∧
    (int.head? = some 48 → int = [48] ∧ (stripZeros frac ≠ [] ∨ u = [] ∧ neg = false)) ∧
    (if neg then -textValue int frac e else textValue int frac e) =
      (if q = 0 then 0 else if q < 0 then -decimal17 (-q) else decimal17 q) ∧ (neg = true ↔ q < 0) := by
  unfold fmtG17
  split_ifs with h0 hneg
  · refine ⟨false, [48], [], [], 0, rfl, by simp [Digits, isdigit], by simp, by simp [Digits],
      .inl ⟨rfl, rfl⟩, ?_, ?_, ?_⟩
    · exact fun _ => ⟨rfl, .inr ⟨rfl, rfl⟩⟩
    · simp [textValue, digitsVal, hexval, isdigit]
    · simp [h0]
  · obtain ⟨int, frac, u, e, htext, hint, hne, hfrac, hu, hval, hhead⟩ := fmtG17Pos_text (neg_pos.mpr hneg)
    refine ⟨true, int, frac, u, e, by rw [htext]; rfl, hint, hne, hfrac, hu, ?_, by simp [hval], by simp [hneg]⟩
    exact fun h => ⟨(hhead h).1, .inl (hhead h).2⟩
  · have hpos : 0 < q := lt_of_le_of_ne (not_lt.mp hneg) (Ne.symm h0)
    obtain ⟨int, frac, u, e, htext, hint, hne, hfrac, hu, hval, hhead⟩ := fmtG17Pos_text hpos
    refine ⟨false, int, frac, u, e, by rw [htext]; rfl, hint, hne, hfrac, hu, ?_, by simp [hval], by simp [hneg]⟩
    exact fun h => ⟨(hhead h).1, .inl (hhead h).2⟩

theorem takeSign_pointed (hint : Digits int) (hne : int ≠ []) (neg : Bool) :
    takeSign ((if neg then [45] else []) ++ (pointed int frac ++ u)) = (neg, pointed int frac ++ u) := by
  obtain ⟨c, int, rfl⟩ := exists_cons_of_ne_nil hne
  have hc : isdigit c = true := hint c (by simp)
  have h45 : c ≠ 45 := ne_of_isdigit hc (by decide)
  have h43 : c ≠ 43 := ne_of_isdigit hc (by decide)
  cases neg <;> simp [takeSign, pointed, h45, h43]

theorem strtodRun_fmtG17 (h : IsNormal q) : strtodRun (fmtG17 q) = ⟨some q, (fmtG17 q).length, false⟩ := by
  obtain ⟨neg, int, frac, u, e, htext, hint, hne, hfrac, hu, -, hval, hneg⟩ := fmtG17_text q
  obtain ⟨num, den, hden, hnum, hrun⟩ := strtodRun_pointed hint hne hfrac hu (takeSign_pointed hint hne neg)
  rw [← htext] at hrun
  rw [hrun, hval]
  rcases lt_trichotomy q 0 with hq | rfl | hq
  · have hpos := neg_pos.mpr hq
    rw [if_neg hq.ne, if_pos hq] at hval ⊢
    rw [if_pos (hneg.mpr hq), neg_inj] at hval
    obtain ⟨hlow, hhigh⟩ := decimal17_range h.neg hpos
    obtain ⟨m, k, hm, hm', hk, -, hmk⟩ := h.neg.mantissa hpos
    obtain ⟨-, hround⟩ := roundDouble_near hm hm' hk hmk (digits17_spec hpos).2.2
    rw [hround, neg_neg, rangeError_of_range hden (hnum.trans hval) hlow hhigh]
  · have hfalse : neg = false := by simpa using hneg
    rw [if_pos rfl, hfalse] at hval
    simp only [Bool.false_eq_true, if_false] at hval
    have hzero : num = 0 := by
      rw [hval, div_eq_zero_iff] at hnum
      rcases hnum with hnum | hnum
      · exact_mod_cast hnum
      · exact absurd hnum (Nat.cast_ne_zero.mpr hden.ne')
    have herr : rangeError num den = false := by
      simp only [rangeError, hzero, Bool.or_eq_false_iff, decide_eq_false_iff_not, not_le, lt_irrefl, false_and,
        not_false_eq_true, and_true]
      exact Nat.mul_pos (Nat.sub_pos_of_lt (Nat.pow_lt_pow_right one_lt_two (by norm_num))) hden
    rw [if_pos rfl, herr, roundDouble, if_pos rfl]
  · rw [if_neg hq.ne', if_neg hq.not_gt] at hval ⊢
    have hfalse : neg = false := by
      rw [← Bool.not_eq_true, hneg]
      exact hq.not_gt
    rw [hfalse] at hval
    simp only [Bool.false_eq_true, if_false] at hval
    obtain ⟨hlow, hhigh⟩ := decimal17_range h hq
    obtain ⟨m, k, hm, hm', hk, -, hmk⟩ := h.mantissa hq
    obtain ⟨hround, -⟩ := roundDouble_near hm hm' hk hmk (digits17_spec hq).2.2
    rw [hround, rangeError_of_range hden (hnum.trans hval) hlow hhigh]

theorem exists_cons_fmtG17 (q : ℚ) :
    ∃ c s, fmtG17 q = c :: s ∧ (c = 45 ∨ isdigit c = true) ∧ isspace c = false := by
  obtain ⟨neg, int, frac, u, e, htext, hint, hne, -⟩ := fmtG17_text q
  obtain ⟨c, int, rfl⟩ := exists_cons_of_ne_nil hne
  have hc : isdigit c = true := hint c (by simp)
  cases neg with
  | true => exact ⟨45, _, htext, .inl rfl, rfl⟩
  | false => exact ⟨c, _, htext, .inr hc, isspace_of_isdigit hc⟩

theorem numChar_of_mem_fmtG17 (hc : c ∈ fmtG17 q) : numChar c = true := by
  obtain ⟨neg, int, frac, u, e, htext, hint, -, hfrac, hu, -⟩ := fmtG17_text q
  rw [htext] at hc
  rcases mem_append.mp hc with hc | hc
  · cases neg with
    | true =>
      rw [mem_singleton.mp hc]
      rfl
    | false => simp at hc
  · rcases mem_append.mp hc with hc | hc
    · exact (decChar_spec (decChar_pointed hint hfrac c hc)).2
    · exact (decChar_spec (hu.decChar c hc)).2

theorem strtod_fmtG17 (h : IsNormal q) (ht : NumberEnds t) :
    strtod (fmtG17 q ++ t) = ⟨some q, (fmtG17 q).length, false⟩ := by
  obtain ⟨c, s, hs, -, hsp⟩ := exists_cons_fmtG17 q
  have hrun : (fmtG17 q).takeWhile numChar = fmtG17 q :=
    takeWhile_eq_self_iff.mpr fun c hc => numChar_of_mem_fmtG17 hc
  rw [hs, strtod_append hsp s ht, strtod_cons hsp, ← hs, hrun, strtodRun_fmtG17 h]

theorem fmtNat_mul_pow (hn : n ≠ 0) : fmtNat (n * 10 ^ j) = fmtNat n ++ replicate j 48 := by
  have hne : n * 10 ^ j ≠ 0 := Nat.mul_ne_zero hn (Nat.pow_pos (by norm_num)).ne'
  have hdigits : Nat.digits 10 (n * 10 ^ j) = replicate j 0 ++ Nat.digits 10 n := by
    rw [Nat.mul_comm, Nat.digits_base_pow_mul (by norm_num) (Nat.pos_of_ne_zero hn)]
  rw [fmtNat, fmtNat, if_neg hne, if_neg hn, hdigits, reverse_append, map_append, reverse_replicate, map_replicate]
  rfl

theorem stripZeros_replicate : stripZeros (replicate j 48) = [] := by
  rw [stripZeros, reverse_replicate, reverse_eq_nil_iff, dropWhile_eq_nil_iff]
  intro c hc
  simpa using eq_of_mem_replicate hc

theorem fmtG17_natCast (hn : n < 10 ^ 17) : fmtG17 (n : ℚ) = fmtNat n := by
  by_cases h0 : n = 0
  · subst h0
    rfl
  have hpos : (0 : ℚ) < n := Nat.cast_pos.mpr (Nat.pos_of_ne_zero h0)
  generalize hk : Nat.log 10 n = k
  have hle : 10 ^ k ≤ n := hk ▸ Nat.pow_log_le_self 10 h0
  have hlt : n < 10 ^ (k + 1) := hk ▸ Nat.lt_pow_succ_log_self (by norm_num) n
  have hk16 : k ≤ 16 := by
    have := (Nat.pow_lt_pow_iff_right (by norm_num : 1 < 10)).mp (lt_of_le_of_lt hle hn)
    omega
  have hscale : (n : ℚ) / 10 ^ ((k : ℤ) - 16) = (n * 10 ^ (16 - k) : ℕ) := by
    rw [show (k : ℤ) - 16 = -((16 - k : ℕ) : ℤ) by omega, zpow_neg, zpow_natCast, div_inv_eq_mul]
    push_cast
    ring
  have hround : roundHalfEven (((n * 10 ^ (16 - k) : ℕ) : ℚ)) = (n * 10 ^ (16 - k) : ℕ) :=
    roundHalfEven_eq (by simp)
  have hne : n * 10 ^ (16 - k) ≠ 10 ^ 17 := by
    have h1 : n * 10 ^ (16 - k) < 10 ^ (k + 1) * 10 ^ (16 - k) :=
      Nat.mul_lt_mul_of_pos_right hlt (Nat.pow_pos (by norm_num))
    rw [← pow_add, show k + 1 + (16 - k) = 17 by omega] at h1
    omega
  have hdigits : digits17 (n : ℚ) = (n * 10 ^ (16 - k), (k : ℤ)) := by
    have hlog : Int.log 10 (n : ℚ) = k := by rw [Int.log_natCast, hk]
    simp only [digits17, hlog, hscale, hround, Int.toNat_natCast, if_neg hne]
  have hlen : (fmtNat n).length = k + 1 := fmtNat_length_eq hle hlt
  rw [fmtG17, if_neg hpos.ne', if_neg hpos.not_gt, fmtG17Pos, hdigits]
  simp only
  rw [if_pos ⟨by omega, by omega⟩, Int.toNat_natCast, fmtNat_mul_pow h0, ← hlen, take_left, drop_left,
    pointed, stripZeros_replicate]
  simp

end CLib
