import Retrace.CLib.Proofs.PrintfProofs

/-!
# A printed subnormal double is not read back

The 17 digits of a subnormal double are never its exact value: that would take more than seven hundred digits.
So `strtod` rounds what was printed to a subnormal double, and reports a range error.
-/

namespace CLib

theorem two_zpow_neg (n : Nat) : (2 : ℚ) ^ (-(n : ℤ)) = ((2 ^ n : ℕ) : ℚ)⁻¹ := by
  rw [zpow_neg, zpow_natCast, Nat.cast_pow, Nat.cast_ofNat]

theorem ten_zpow_neg (n : Nat) : (10 : ℚ) ^ (-(n : ℤ)) = ((10 ^ n : ℕ) : ℚ)⁻¹ := by
  rw [zpow_neg, zpow_natCast, Nat.cast_pow, Nat.cast_ofNat]

theorem IsDouble.multiple (h : IsDouble q) : ∃ y : ℤ, q = y * 2 ^ (-1074 : ℤ) := by
  obtain ⟨m, k, -, hk, hmk⟩ := h.scaled
  obtain ⟨d, hd⟩ := Int.eq_ofNat_of_zero_le (by omega : 0 ≤ k + 1074)
  refine ⟨m * 2 ^ d, ?_⟩
  rw [hmk, show k = (d : ℤ) + -1074 by omega, zpow_add₀ two_ne_zero, zpow_natCast]
  push_cast
  ring

theorem decimal17_pos (hq : 0 < q) : 0 < decimal17 q := by
  have hm : (0 : ℚ) < (digits17 q).1 := Nat.cast_pos.mpr (Nat.lt_of_lt_of_le (by norm_num) (digits17_spec hq).1)
  exact mul_pos hm (zpow_pos (by norm_num) _)

theorem decimal17_lt_min (h : IsDouble q) (hq : 0 < q) (hlow : q < 2 ^ (-1022 : ℤ)) :
    decimal17 q < 2 ^ (-1022 : ℤ) := by
  obtain ⟨y, hy⟩ := h.multiple
  obtain ⟨-, -, hnear⟩ := digits17_spec hq
  obtain ⟨-, h2⟩ := abs_le.mp hnear
  have hmin : (2 : ℚ) ^ (-1022 : ℤ) = (2 ^ 52 : ℤ) * 2 ^ (-1074 : ℤ) := by
    rw [show (-1022 : ℤ) = ((52 : ℕ) : ℤ) + -1074 by norm_num, zpow_add₀ two_ne_zero, zpow_natCast]
    push_cast
    ring
  have hpos := two_zpow_pos (-1074)
  have hlt : y < 2 ^ 52 := by
    rw [hmin, hy] at hlow
    exact_mod_cast lt_of_mul_lt_mul_right hlow hpos.le
  have hle : (y : ℚ) ≤ 2 ^ 52 - 1 := by exact_mod_cast (by omega : y ≤ 2 ^ 52 - 1)
  have hq' : q ≤ (2 ^ 52 - 1) * 2 ^ (-1074 : ℤ) := by
    rw [hy]
    exact mul_le_mul_of_nonneg_right hle hpos.le
  rw [hmin]
  push_cast
  clear hmin hy
  generalize (2 : ℚ) ^ (-1074 : ℤ) = u at hpos hq' ⊢
  linarith only [h2, hq', hpos]

theorem digits17_exponent_le (hq : 0 < q) (hlow : decimal17 q < 2 ^ (-1022 : ℤ)) : (digits17 q).2 ≤ -308 := by
  by_contra hx
  have hten : (0 : ℚ) < 10 ^ ((digits17 q).2 - 16) := zpow_pos (by norm_num) _
  have hm : (10 : ℚ) ^ (16 : ℕ) ≤ (digits17 q).1 := by exact_mod_cast (digits17_spec hq).1
  have hge : (10 : ℚ) ^ (-307 : ℤ) ≤ decimal17 q := by
    calc (10 : ℚ) ^ (-307 : ℤ) ≤ 10 ^ (digits17 q).2 := zpow_le_zpow_right₀ (by norm_num) (by omega)
      _ = 10 ^ (16 : ℕ) * 10 ^ ((digits17 q).2 - 16) := by
        rw [← zpow_natCast, ← zpow_add₀ (by norm_num)]
        congr 1
        push_cast
        ring
      _ ≤ decimal17 q := mul_le_mul_of_nonneg_right hm hten.le
  have hlt : (2 : ℚ) ^ (-1022 : ℤ) < 10 ^ (-307 : ℤ) := by
    rw [show (-1022 : ℤ) = -((1022 : ℕ) : ℤ) by norm_num,
      show (-307 : ℤ) = -((307 : ℕ) : ℤ) by norm_num, two_zpow_neg,
      ten_zpow_neg, inv_lt_inv₀ (Nat.cast_pos.mpr (Nat.pow_pos two_pos))
        (Nat.cast_pos.mpr (Nat.pow_pos (by norm_num))),
      Nat.cast_lt]
    decide +kernel
  exact absurd (hge.trans_lt (hlow.trans hlt)) (lt_irrefl _)

theorem decimal17_ne_multiple (hq : 0 < q) (hx : (digits17 q).2 ≤ -308) (n : Nat) :
    decimal17 q ≠ n * 2 ^ (-1074 : ℤ) := by
  obtain ⟨hm, hm', -⟩ := digits17_spec hq
  obtain ⟨j, hj⟩ := Int.eq_ofNat_of_zero_le (by omega : 0 ≤ 16 - (digits17 q).2)
  intro heq
  have hj' : 324 ≤ j := by omega
  rw [decimal17, show (digits17 q).2 - 16 = -(j : ℤ) by omega, ten_zpow_neg,
    show (-1074 : ℤ) = -((1074 : ℕ) : ℤ) by norm_num, two_zpow_neg, ← div_eq_mul_inv, ← div_eq_mul_inv,
    div_eq_div_iff (Nat.cast_ne_zero.mpr (Nat.pow_pos (by norm_num)).ne')
      (Nat.cast_ne_zero.mpr (Nat.pow_pos two_pos).ne')] at heq
  have hnat : (digits17 q).1 * 2 ^ 1074 = n * 10 ^ j := by exact_mod_cast heq
  have hfive : 5 ^ j ∣ (digits17 q).1 * 2 ^ 1074 := by
    rw [hnat, show (10 : ℕ) = 5 * 2 by norm_num, Nat.mul_pow]
    exact Dvd.intro _ (by ring : 5 ^ j * (n * 2 ^ j) = _)
  have hcop : Nat.Coprime (5 ^ j) (2 ^ 1074) := Nat.Coprime.pow _ _ (by norm_num)
  have hle := Nat.le_of_dvd (by omega) (hcop.dvd_of_dvd_mul_right hfive)
  have hbig : 10 ^ 17 < 5 ^ j := by
    calc 10 ^ 17 < 5 ^ 324 := by decide
      _ ≤ 5 ^ j := Nat.pow_le_pow_right (by norm_num) hj'
  omega

theorem rangeError_of_subnormal (h : IsDouble q) (hq : 0 < q) (hlow : q < 2 ^ (-1022 : ℤ)) {num den : Nat}
    (hden : 0 < den) (hx : (num : ℚ) / den = decimal17 q) : rangeError num den = true := by
  have hden' : (0 : ℚ) < den := Nat.cast_pos.mpr hden
  have hsmall := decimal17_lt_min h hq hlow
  have hnum : (num : ℚ) = decimal17 q * den := by
    rw [← hx]
    field_simp
  have hpos : 0 < num := by
    have : (0 : ℚ) < num := hnum ▸ mul_pos (decimal17_pos hq) hden'
    exact_mod_cast this
  have hlt : num * 2 ^ 1022 < den := by
    rw [two_zpow_min, lt_inv_comm₀ (decimal17_pos hq) (Nat.cast_pos.mpr (Nat.pow_pos two_pos))] at hsmall
    have hone : decimal17 q * ((2 ^ 1022 : ℕ) : ℚ) < 1 := by
      rwa [lt_inv_comm₀ (Nat.cast_pos.mpr (Nat.pow_pos two_pos)) (decimal17_pos hq), ← one_div,
        lt_div_iff₀ (Nat.cast_pos.mpr (Nat.pow_pos two_pos))] at hsmall
    rw [← Nat.cast_lt (α := ℚ), Nat.cast_mul, hnum, mul_right_comm]
    exact mul_lt_of_lt_one_left hden' hone
  have hrest : num * 2 ^ 1074 % den ≠ 0 := by
    intro hzero
    obtain ⟨n, hn⟩ := Nat.dvd_of_mod_eq_zero hzero
    refine decimal17_ne_multiple hq (digits17_exponent_le hq (decimal17_lt_min h hq hlow)) n ?_
    rw [← hx, show (-1074 : ℤ) = -((1074 : ℕ) : ℤ) by norm_num, two_zpow_neg, ← div_eq_mul_inv,
      div_eq_div_iff hden'.ne' (Nat.cast_ne_zero.mpr (Nat.pow_pos two_pos).ne')]
    have : ((num * 2 ^ 1074 : ℕ) : ℚ) = ((den * n : ℕ) : ℚ) := by rw [hn]
    rw [Nat.cast_mul, Nat.cast_mul] at this
    rw [this, mul_comm]
  simp only [rangeError, Bool.or_eq_true, decide_eq_true_eq]
  exact .inr ⟨hpos, hlt, hrest⟩

theorem strtod_subnormal (h : IsDouble q) (hq : q ≠ 0) (hlow : |q| < 2 ^ (-1022 : ℤ)) {t : Bytes}
    (ht : NumberEnds t) : (strtod (fmtG17 q ++ t)).erange = true := by
  obtain ⟨c, s, hs, -, hsp⟩ := exists_cons_fmtG17 q
  have hrun : (fmtG17 q).takeWhile numChar = fmtG17 q :=
    List.takeWhile_eq_self_iff.mpr fun c hc => numChar_of_mem_fmtG17 hc
  rw [hs, strtod_append hsp s ht, strtod_cons hsp, ← hs, hrun]
  obtain ⟨neg, int, frac, u, e, htext, hint, hne, hfrac, hu, -, hval, hneg⟩ := fmtG17_text q
  obtain ⟨num, den, hden, hnum, hparse⟩ := strtodRun_pointed hint hne hfrac hu (takeSign_pointed hint hne neg)
  rw [← htext] at hparse
  rw [hparse]
  dsimp only
  rcases lt_or_gt_of_ne hq with hlt | hgt
  · rw [if_neg hq, if_pos hlt, if_pos (hneg.mpr hlt), neg_inj] at hval
    rw [abs_of_neg hlt] at hlow
    exact rangeError_of_subnormal h.neg (neg_pos.mpr hlt) hlow hden (hnum.trans hval)
  · have hfalse : neg = false := by
      rw [← Bool.not_eq_true, hneg]
      exact hgt.not_gt
    rw [if_neg hq, if_neg hgt.not_gt, hfalse, if_neg Bool.false_ne_true] at hval
    rw [abs_of_pos hgt] at hlow
    exact rangeError_of_subnormal h hgt hlow hden (hnum.trans hval)

theorem one_le_roundDouble {x : ℚ} (hx : 1 ≤ x) : 1 ≤ roundDouble x := by
  have hx0 : x ≠ 0 := by linarith
  have hpos := two_zpow_pos (roundExponent x)
  have hround : roundDouble x = roundHalfEven (x / 2 ^ roundExponent x) * 2 ^ roundExponent x := by
    rw [roundDouble, if_neg hx0]
    rfl
  rw [hround]
  rcases le_or_gt (roundExponent x) 0 with he | he
  · -- the unit of the last place divides 1
    obtain ⟨j, hj⟩ : ∃ j : Nat, roundExponent x = -(j : ℤ) := ⟨(-roundExponent x).toNat, by omega⟩
    have hle : ((2 ^ j : ℤ) : ℚ) ≤ x / 2 ^ roundExponent x := by
      rw [le_div_iff₀ hpos, hj, zpow_neg, zpow_natCast]
      push_cast
      rw [mul_inv_cancel₀ (by positivity)]
      exact hx
    have hmant := le_roundHalfEven hle
    have hmant' : ((2 ^ j : ℤ) : ℚ) ≤ roundHalfEven (x / 2 ^ roundExponent x) := by exact_mod_cast hmant
    calc (1 : ℚ) = ((2 ^ j : ℤ) : ℚ) * 2 ^ roundExponent x := by
          rw [hj, zpow_neg, zpow_natCast]
          push_cast
          rw [mul_inv_cancel₀ (by positivity)]
      _ ≤ _ := mul_le_mul_of_nonneg_right hmant' hpos.le
  · -- the unit is at most `x`
    have hlog : roundExponent x ≤ Int.log 2 |x| := by
      rw [roundExponent] at he ⊢
      omega
    have hle : ((1 : ℤ) : ℚ) ≤ x / 2 ^ roundExponent x := by
      rw [Int.cast_one, le_div_iff₀ hpos, one_mul]
      have hself := Int.zpow_log_le_self one_lt_two (abs_pos.mpr hx0)
      rw [Nat.cast_ofNat, abs_of_pos (by linarith)] at hself
      rw [abs_of_pos (by linarith)] at hlog
      exact (zpow_le_zpow_right₀ one_le_two hlog).trans hself
    have hmant := le_roundHalfEven hle
    have hmant' : ((1 : ℤ) : ℚ) ≤ roundHalfEven (x / 2 ^ roundExponent x) := by exact_mod_cast hmant
    rw [Int.cast_one] at hmant'
    calc (1 : ℚ) ≤ 2 ^ roundExponent x := one_le_zpow₀ one_le_two he.le
      _ = 1 * 2 ^ roundExponent x := (one_mul _).symm
      _ ≤ _ := mul_le_mul_of_nonneg_right hmant' hpos.le

end CLib
