import Retrace.CLib.Strtod

/-!
# Doubles

The values `roundDouble` takes, and how close to a double a number must be to round to it. Seventeen
decimal digits are close enough, because `10 ^ 16` is above `2 ^ 53`.
-/

namespace CLib

variable {q x : ℚ} {n : ℤ}

theorem roundHalfEven_bounds (q : ℚ) : |(roundHalfEven q : ℚ) - q| ≤ 1 / 2 := by
  have h1 := Int.floor_le q
  have h2 := Int.lt_floor_add_one q
  unfold roundHalfEven
  split_ifs with ha hb hc
  · rw [abs_le]
    constructor <;> linarith
  · push_cast
    rw [abs_le]
    constructor <;> linarith
  · rw [abs_le]
    constructor <;> linarith
  · push_cast
    rw [abs_le]
    constructor <;> linarith

theorem roundHalfEven_eq (h : |q - n| < 1 / 2) : roundHalfEven q = n := by
  have hb := roundHalfEven_bounds q
  rw [abs_lt] at h
  rw [abs_le] at hb
  have h1 : (roundHalfEven q : ℚ) < n + 1 := by linarith
  have h2 : (n : ℚ) < roundHalfEven q + 1 := by linarith
  have h1' : roundHalfEven q < n + 1 := by exact_mod_cast h1
  have h2' : n < roundHalfEven q + 1 := by exact_mod_cast h2
  omega

theorem roundHalfEven_le (h : q ≤ n) : roundHalfEven q ≤ n := by
  by_contra hlt
  have hb := roundHalfEven_bounds q
  rw [abs_le] at hb
  have h1 : (n : ℚ) + 1 ≤ roundHalfEven q := by exact_mod_cast (by omega : n + 1 ≤ roundHalfEven q)
  linarith

theorem le_roundHalfEven (h : (n : ℚ) ≤ q) : n ≤ roundHalfEven q := by
  by_contra hlt
  have hb := roundHalfEven_bounds q
  rw [abs_le] at hb
  have h1 : (roundHalfEven q : ℚ) + 1 ≤ n := by exact_mod_cast (by omega : roundHalfEven q + 1 ≤ n)
  linarith

/-- The numbers that have a mantissa of 53 bits, and no exponent below that of the subnormal ones or
above the greatest. -/
structure IsDouble (q : ℚ) : Prop where
  scaled : ∃ m k : ℤ, |m| ≤ 2 ^ 53 ∧ -1074 ≤ k ∧ q = m * 2 ^ k
  finite : |q| < 2 ^ (1024 : ℤ)

theorem isDouble_zero : IsDouble 0 := ⟨⟨0, 0, by norm_num, by norm_num, by norm_num⟩, by norm_num⟩

theorem IsDouble.neg (h : IsDouble q) : IsDouble (-q) := by
  obtain ⟨⟨m, k, hm, hk, hq⟩, hfin⟩ := h
  exact ⟨⟨-m, k, by rwa [abs_neg], hk, by rw [hq]; push_cast; ring⟩, by rwa [abs_neg]⟩

structure IsNormal (q : ℚ) : Prop extends IsDouble q where
  normal : q = 0 ∨ 2 ^ (-1022 : ℤ) ≤ |q|

theorem IsNormal.neg (h : IsNormal q) : IsNormal (-q) :=
  ⟨h.toIsDouble.neg, by simpa using h.normal⟩

theorem isNormal_natCast {n : Nat} (hn : n ≤ 2 ^ 53) : IsNormal (n : ℚ) := by
  have habs : |(n : ℚ)| = n := abs_of_nonneg (Nat.cast_nonneg n)
  refine ⟨⟨⟨n, 0, ?_, by norm_num, by simp⟩, ?_⟩, ?_⟩
  · rw [abs_of_nonneg (Int.natCast_nonneg n)]
    exact_mod_cast hn
  · rw [habs]
    refine lt_of_le_of_lt (by exact_mod_cast hn : (n : ℚ) ≤ 2 ^ (53 : ℤ)) ?_
    exact zpow_lt_zpow_right₀ one_lt_two (by norm_num)
  · rcases Nat.eq_zero_or_pos n with rfl | hpos
    · exact .inl Nat.cast_zero
    · refine .inr ?_
      rw [habs]
      refine le_trans (zpow_le_one_of_nonpos₀ one_le_two (by norm_num)) ?_
      exact_mod_cast hpos

theorem isNormal_one : IsNormal 1 := by
  have := isNormal_natCast (by norm_num : 1 ≤ 2 ^ 53)
  rwa [Nat.cast_one] at this

theorem two_zpow_pos (k : ℤ) : (0 : ℚ) < 2 ^ k := zpow_pos (by norm_num) k

theorem IsNormal.mantissa (h : IsNormal q) (hq : 0 < q) :
    ∃ m k : ℤ, 2 ^ 52 ≤ m ∧ m < 2 ^ 53 ∧ -1074 ≤ k ∧ k ≤ 971 ∧ q = m * 2 ^ k := by
  obtain ⟨⟨m, k, hm, hk, hmk⟩, hfin⟩ := h.toIsDouble
  have hlow : (2 : ℚ) ^ (-1022 : ℤ) ≤ q := by
    have := h.normal
    rw [abs_of_pos hq] at this
    exact this.resolve_left hq.ne'
  rw [abs_of_pos hq] at hfin
  generalize hx : Int.log 2 q = x
  have hle : (2 : ℚ) ^ x ≤ q := by
    rw [← hx]
    exact_mod_cast Int.zpow_log_le_self one_lt_two hq
  have hlt : q < (2 : ℚ) ^ (x + 1) := by
    rw [← hx]
    exact_mod_cast Int.lt_zpow_succ_log_self one_lt_two q
  have hx1 : -1022 ≤ x := by
    rw [← hx, ← Int.zpow_le_iff_le_log one_lt_two hq]
    exact_mod_cast hlow
  have hx2 : x ≤ 1023 := by
    rw [← hx]
    refine Int.lt_add_one_iff.mp ((Int.lt_zpow_iff_log_lt one_lt_two hq).mp ?_)
    rw [Nat.cast_ofNat]
    exact hfin
  have hmpos : 0 < m := by
    have : (0 : ℚ) < m * 2 ^ k := hmk ▸ hq
    exact_mod_cast (pos_iff_pos_of_mul_pos this).mpr (two_zpow_pos k)
  rw [abs_of_pos hmpos] at hm
  -- the mantissa is shifted to the left, or it is `2 ^ 53` and is halved
  obtain ⟨n, hn⟩ : ∃ n : ℤ, q = n * 2 ^ (x - 52) := by
    rcases le_or_gt (x - 52) k with hxk | hxk
    · obtain ⟨d, hd⟩ := Int.eq_ofNat_of_zero_le (sub_nonneg.mpr hxk)
      refine ⟨m * 2 ^ d, ?_⟩
      have hk' : k = (d : ℤ) + (x - 52) := by omega
      rw [hmk, hk', zpow_add₀ two_ne_zero, zpow_natCast]
      push_cast
      ring
    · have hm' : (2 : ℚ) ^ (53 : ℤ) ≤ m := by
        have h1 : (2 : ℚ) ^ ((53 : ℤ) + k) ≤ m * 2 ^ k :=
          (zpow_le_zpow_right₀ one_le_two (by omega)).trans (hmk ▸ hle)
        rw [zpow_add₀ two_ne_zero] at h1
        exact le_of_mul_le_mul_right h1 (two_zpow_pos k)
      have hm53 : m = 2 ^ 53 := le_antisymm hm (by exact_mod_cast hm')
      have hxk' : x - 52 = k + 1 := by
        have h1 : (2 : ℚ) ^ x ≤ 2 ^ ((53 : ℤ) + k) := by
          rw [zpow_add₀ two_ne_zero]
          refine hle.trans (le_of_eq ?_)
          rw [hmk, hm53]
          norm_num
        have h2 := (zpow_le_zpow_iff_right₀ (one_lt_two : (1 : ℚ) < 2)).mp h1
        omega
      refine ⟨2 ^ 52, ?_⟩
      rw [hxk', hmk, hm53, zpow_add_one₀ two_ne_zero]
      push_cast
      ring
  refine ⟨n, x - 52, ?_, ?_, by omega, by omega, hn⟩
  · have h1 : (2 : ℚ) ^ ((52 : ℤ) + (x - 52)) ≤ n * 2 ^ (x - 52) := by
      rw [← hn]
      convert hle using 2
      ring
    rw [zpow_add₀ two_ne_zero] at h1
    exact_mod_cast le_of_mul_le_mul_right h1 (two_zpow_pos _)
  · have h1 : n * 2 ^ (x - 52) < (2 : ℚ) ^ ((53 : ℤ) + (x - 52)) := by
      rw [← hn]
      convert hlt using 2
      ring
    rw [zpow_add₀ two_ne_zero] at h1
    exact_mod_cast lt_of_mul_lt_mul_right h1 (two_zpow_pos _).le

def roundExponent (x : ℚ) : ℤ := max (Int.log 2 |x| - 52) (-1074)

theorem roundExponent_neg (x : ℚ) : roundExponent (-x) = roundExponent x := by
  rw [roundExponent, roundExponent, abs_neg]

theorem roundExponent_mul {j : Nat} (h : (2 : ℚ) ^ j ≤ y) (h' : y < 2 ^ (j + 1)) (k : ℤ) :
    roundExponent (y * 2 ^ k) = max (j + k - 52) (-1074) := by
  have hpos := two_zpow_pos k
  have hxpos : 0 < y * 2 ^ k := mul_pos (lt_of_lt_of_le (by positivity) h) hpos
  have hlog : Int.log 2 (y * 2 ^ k) = j + k := by
    apply le_antisymm
    · refine Int.lt_add_one_iff.mp ((Int.lt_zpow_iff_log_lt one_lt_two hxpos).mp ?_)
      rw [Nat.cast_ofNat, show (j : ℤ) + k + 1 = ((j + 1 : ℕ) : ℤ) + k by push_cast; ring,
        zpow_add₀ two_ne_zero, zpow_natCast]
      exact mul_lt_mul_of_pos_right h' hpos
    · rw [← Int.zpow_le_iff_le_log one_lt_two hxpos, Nat.cast_ofNat, zpow_add₀ two_ne_zero, zpow_natCast]
      exact mul_le_mul_of_nonneg_right h hpos.le
  rw [roundExponent, abs_of_pos hxpos, hlog]

theorem roundDouble_eq (hx : x ≠ 0) (h : |x / 2 ^ roundExponent x - n| < 1 / 2) :
    roundDouble x = n * 2 ^ roundExponent x := by
  rw [roundDouble, if_neg hx]
  exact congrArg (fun n : ℤ => (n : ℚ) * 2 ^ roundExponent x) (roundHalfEven_eq h)

theorem roundDouble_near {m k : ℤ} (hm : 2 ^ 52 ≤ m) (hm' : m < 2 ^ 53) (hk : -1074 ≤ k)
    (hq : q = m * 2 ^ k) (hx : |x - q| ≤ q / (2 * 10 ^ 16)) : roundDouble x = q ∧ roundDouble (-x) = -q := by
  have hpos := two_zpow_pos k
  have hmq : (2 : ℚ) ^ 52 ≤ m := by exact_mod_cast hm
  have hmq' : (m : ℚ) + 1 ≤ 2 ^ 53 := by exact_mod_cast hm'
  -- the same distance, with the exponent of `q` divided out
  obtain ⟨y, rfl⟩ : ∃ y, x = y * 2 ^ k := ⟨x / 2 ^ k, by field_simp⟩
  have hy : |y - m| ≤ m / (2 * 10 ^ 16) := by
    rw [hq, ← sub_mul, abs_mul, abs_of_pos hpos] at hx
    have h1 : (m : ℚ) * 2 ^ k / (2 * 10 ^ 16) = m / (2 * 10 ^ 16) * 2 ^ k := by ring
    rw [h1] at hx
    exact le_of_mul_le_mul_right hx hpos
  obtain ⟨hy1, hy2⟩ := abs_le.mp hy
  have hypos : 0 < y := by
    norm_num at *
    linarith
  have hxpos : 0 < y * 2 ^ k := mul_pos hypos hpos
  have hlt : y < 2 ^ 53 := by
    norm_num at *
    linarith
  -- the exponent is that of `q`, or one less below a power of two
  have hexp : roundExponent (y * 2 ^ k) = k ∨ roundExponent (y * 2 ^ k) = k - 1 ∧ m = 2 ^ 52 := by
    rcases le_or_gt (2 ^ 52) y with h52 | h52
    · rw [roundExponent_mul h52 hlt]
      omega
    · have hm52 : m = 2 ^ 52 := by
        by_contra hne
        have h1 : (2 : ℚ) ^ 52 + 1 ≤ m := by exact_mod_cast (by omega : (2 : ℤ) ^ 52 + 1 ≤ m)
        norm_num at *
        linarith
      have h51 : (2 : ℚ) ^ 51 ≤ y := by
        norm_num at *
        linarith
      rw [roundExponent_mul h51 h52]
      omega
  have hround : ∃ n : ℤ, |y * 2 ^ k / 2 ^ roundExponent (y * 2 ^ k) - n| < 1 / 2 ∧
      n * 2 ^ roundExponent (y * 2 ^ k) = q := by
    rcases hexp with he | ⟨he, hm52⟩
    · refine ⟨m, ?_, by rw [he, hq]⟩
      rw [he, mul_div_assoc, div_self hpos.ne', mul_one]
      refine lt_of_le_of_lt hy ?_
      norm_num at *
      linarith
    · have h2 : (2 : ℚ) ^ k = 2 * 2 ^ (k - 1) := by
        rw [← zpow_one_add₀ two_ne_zero, show 1 + (k - 1) = k by ring]
      refine ⟨2 * m, ?_, by rw [he, hq, h2]; push_cast; ring⟩
      have hdiv : y * 2 ^ k / 2 ^ (k - 1) = 2 * y := by
        rw [h2]
        field_simp
      have hm52' : (m : ℚ) = 2 ^ 52 := by exact_mod_cast hm52
      rw [he, hdiv, Int.cast_mul, Int.cast_ofNat, ← mul_sub, abs_mul, abs_two]
      rw [hm52'] at hy ⊢
      norm_num at hy ⊢
      linarith
  obtain ⟨n, hn, hnq⟩ := hround
  refine ⟨(roundDouble_eq hxpos.ne' hn).trans hnq, ?_⟩
  have hn' : |-(y * 2 ^ k) / 2 ^ roundExponent (-(y * 2 ^ k)) - (-n : ℤ)| < 1 / 2 := by
    rw [roundExponent_neg, neg_div, Int.cast_neg, sub_neg_eq_add, neg_add_eq_sub, abs_sub_comm]
    exact hn
  rw [roundDouble_eq (neg_ne_zero.mpr hxpos.ne') hn', roundExponent_neg, ← hnq]
  push_cast
  ring

theorem roundDouble_natCast {n : Nat} (hn : n ≤ 2 ^ 53) : roundDouble (n : ℚ) = n := by
  rcases Nat.eq_zero_or_pos n with rfl | hpos
  · rw [Nat.cast_zero, roundDouble, if_pos rfl]
  · have hpos' : (0 : ℚ) < n := Nat.cast_pos.mpr hpos
    obtain ⟨m, k, hm, hm', hk, -, hmk⟩ := (isNormal_natCast hn).mantissa hpos'
    refine (roundDouble_near hm hm' hk hmk ?_).1
    rw [sub_self, abs_zero]
    positivity

theorem abs_roundHalfEven_le (x : ℚ) : |roundHalfEven (x / 2 ^ roundExponent x)| ≤ 2 ^ 53 := by
  have hpos := two_zpow_pos (roundExponent x)
  have hlt : |x| < (2 : ℚ) ^ (53 : ℤ) * 2 ^ roundExponent x := by
    rw [← zpow_add₀ two_ne_zero]
    refine lt_of_lt_of_le (Int.lt_zpow_succ_log_self one_lt_two |x|) ?_
    rw [Nat.cast_ofNat]
    refine zpow_le_zpow_right₀ one_le_two ?_
    rw [roundExponent]
    omega
  have hle : |x / 2 ^ roundExponent x| ≤ (2 ^ 53 : ℤ) := by
    rw [abs_div, abs_of_pos hpos, div_le_iff₀ hpos]
    exact_mod_cast hlt.le
  obtain ⟨h1, h2⟩ := abs_le.mp hle
  exact abs_le.mpr ⟨le_roundHalfEven (by exact_mod_cast h1), roundHalfEven_le h2⟩

theorem isDouble_roundDouble (hx : |x| < 2 ^ (1024 : ℤ) - 2 ^ (970 : ℤ)) : IsDouble (roundDouble x) := by
  by_cases h0 : x = 0
  · rw [h0, roundDouble, if_pos rfl]
    exact isDouble_zero
  have hpos := two_zpow_pos (roundExponent x)
  have habs : 0 < |x| := abs_pos.mpr h0
  have hround : roundDouble x = roundHalfEven (x / 2 ^ roundExponent x) * 2 ^ roundExponent x := by
    rw [roundDouble, if_neg h0]
    rfl
  have hmant := abs_roundHalfEven_le x
  generalize hn : roundHalfEven (x / 2 ^ roundExponent x) = n at hround hmant
  refine ⟨⟨n, roundExponent x, hmant, le_max_right _ _, hround⟩, ?_⟩
  have hlog : Int.log 2 |x| < 1024 := by
    refine (Int.lt_zpow_iff_log_lt one_lt_two habs).mp ?_
    rw [Nat.cast_ofNat]
    exact hx.trans (sub_lt_self _ (two_zpow_pos _))
  rw [hround, abs_mul, abs_of_pos hpos]
  have hmant' : |(n : ℚ)| ≤ 2 ^ (53 : ℤ) := by exact_mod_cast hmant
  rcases Int.lt_or_eq_of_le (by omega : Int.log 2 |x| ≤ 1023) with hlt | heq
  · have hexp : roundExponent x ≤ 970 := by
      rw [roundExponent]
      omega
    refine lt_of_le_of_lt (mul_le_mul hmant' (zpow_le_zpow_right₀ one_le_two hexp) hpos.le (by positivity)) ?_
    rw [← zpow_add₀ two_ne_zero]
    exact zpow_lt_zpow_right₀ one_lt_two (by norm_num)
  · -- next to the greatest double the mantissa does not carry
    have hexp : roundExponent x = 971 := by
      rw [roundExponent]
      omega
    have hbound : |x / 2 ^ (971 : ℤ)| < 2 ^ (53 : ℤ) - 1 / 2 := by
      rw [abs_div, abs_of_pos (two_zpow_pos 971), div_lt_iff₀ (two_zpow_pos 971), sub_mul, ← zpow_add₀ two_ne_zero]
      refine lt_of_lt_of_eq hx ?_
      have h971 : (2 : ℚ) ^ (971 : ℤ) = 2 ^ (970 : ℤ) * 2 := zpow_add_one₀ two_ne_zero 970
      rw [show (53 : ℤ) + 971 = 1024 by norm_num, h971]
      ring
    have hdist := roundHalfEven_bounds (x / 2 ^ roundExponent x)
    rw [hn, hexp] at hdist
    have hlt : |(n : ℚ)| < 2 ^ (53 : ℤ) := by
      have := abs_sub_abs_le_abs_sub (n : ℚ) (x / 2 ^ (971 : ℤ))
      linarith
    rw [hexp]
    calc |(n : ℚ)| * 2 ^ (971 : ℤ) < 2 ^ (53 : ℤ) * 2 ^ (971 : ℤ) := mul_lt_mul_of_pos_right hlt (two_zpow_pos _)
      _ = 2 ^ (1024 : ℤ) := by rw [← zpow_add₀ two_ne_zero]; norm_num

theorem isDouble_of_rangeError (hden : 0 < den) (h : rangeError num den = false) (neg : Bool) :
    IsDouble (roundDouble (if neg then -((num : ℚ) / den) else (num : ℚ) / den)) := by
  apply isDouble_roundDouble
  have hden' : (0 : ℚ) < den := Nat.cast_pos.mpr hden
  have habs : |if neg then -((num : ℚ) / den) else (num : ℚ) / den| = (num : ℚ) / den := by
    have hnonneg : (0 : ℚ) ≤ (num : ℚ) / den := by positivity
    split_ifs
    · rw [abs_neg, abs_of_nonneg hnonneg]
    · rw [abs_of_nonneg hnonneg]
  simp only [rangeError, Bool.or_eq_false_iff, decide_eq_false_iff_not, not_le] at h
  have hlt : ((num : ℕ) : ℚ) < (((2 ^ 1024 - 2 ^ 970) * den : ℕ) : ℚ) := Nat.cast_lt.mpr h.1
  rw [habs, div_lt_iff₀ hden']
  refine lt_of_lt_of_eq hlt ?_
  rw [Nat.cast_mul, Nat.cast_sub (Nat.pow_le_pow_right two_pos (by norm_num)), Nat.cast_pow, Nat.cast_pow,
    Nat.cast_ofNat, ← zpow_natCast, ← zpow_natCast, Nat.cast_ofNat, Nat.cast_ofNat]

theorem scanNumber_isDouble (heb : 0 < eb) (h : (scanNumber digit b eb perDigit marker neg skip s).erange = false)
    (hq : (scanNumber digit b eb perDigit marker neg skip s).value = some q) : IsDouble q := by
  unfold scanNumber at h hq
  generalize scanMantissa digit s = m at h hq
  obtain ⟨i, f, len⟩ := m
  by_cases hlen : len = 0
  · simp only [hlen, if_true, Option.some.injEq] at hq
    rw [← hq]
    exact isDouble_zero
  · simp only [if_neg hlen, Option.some.injEq] at h hq
    rw [← hq]
    exact isDouble_of_rangeError (Nat.pow_pos heb) h neg

theorem strtod_isDouble (h : (strtod s).erange = false) (hq : (strtod s).value = some q) : IsDouble q := by
  have hrun : (strtodRun ((s.dropWhile isspace).takeWhile numChar)).erange = false ∧
      (strtodRun ((s.dropWhile isspace).takeWhile numChar)).value = some q := by
    unfold strtod at h hq
    simp only at h hq
    split_ifs at h hq
    · exact ⟨h, hq⟩
    · exact ⟨h, hq⟩
  obtain ⟨h, hq⟩ := hrun
  unfold strtodRun at h hq
  generalize takeSign ((s.dropWhile isspace).takeWhile numChar) = ns at h hq
  obtain ⟨neg, r⟩ := ns
  simp only at h hq
  split_ifs at h hq
  · exact scanNumber_isDouble (by norm_num) h hq
  · exact scanNumber_isDouble (by norm_num) h hq

theorem toNat_doubleToU64 {d : ℚ} (h0 : 0 ≤ d) (h : d < 2 ^ 64) : ((doubleToU64 d).toNat : ℤ) = ⌊d⌋ := by
  have hlow : 0 ≤ ⌊d⌋ := Int.floor_nonneg.mpr h0
  have hhigh : ⌊d⌋ < 2 ^ 64 := Int.floor_lt.mpr (by exact_mod_cast h)
  rw [doubleToU64, if_pos h0, UInt64.ofInt, UInt64.toNat_ofNat']
  omega

end CLib
