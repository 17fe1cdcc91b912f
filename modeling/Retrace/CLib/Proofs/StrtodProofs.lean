import Retrace.CLib.Strtod
import Retrace.CLib.Proofs.CStringProofs

/-!
# Facts about `strtod`

What follows a number does not change how it is read, and a decimal integer is read whole.
-/

namespace CLib

open List

variable {ds t : Bytes}

def NumberEnds (t : Bytes) : Prop := ∀ c ∈ t.head?, numChar c = false

theorem takeSign_length (s : Bytes) : (takeSign s).2.length ≤ s.length := by
  cases s with
  | nil => simp [takeSign]
  | cons c s => simp only [takeSign]; split_ifs <;> simp

theorem scanExponent_le (m : UInt8) (s : Bytes) : (scanExponent m s).2 ≤ s.length := by
  cases s with
  | nil => simp [scanExponent]
  | cons c t =>
    have h1 := takeSign_length t
    have h2 := (takeWhile_sublist isdigit (l := (takeSign t).2)).length_le
    simp only [scanExponent]
    split_ifs <;> simp <;> omega

theorem scanMantissa_le (digit : UInt8 → Bool) (s : Bytes) : (scanMantissa digit s).2.2 ≤ s.length := by
  have hsplit := congrArg List.length (takeWhile_append_dropWhile (p := digit) (l := s))
  rw [length_append] at hsplit
  unfold scanMantissa
  cases hd : s.dropWhile digit with
  | nil => simp [hd] at hsplit ⊢; omega
  | cons c t =>
    have h2 := (takeWhile_sublist digit (l := t)).length_le
    simp only [hd, length_cons] at hsplit
    simp only
    split_ifs <;> simp only <;> omega

theorem scanNumber_le (digit : UInt8 → Bool) :
    (scanNumber digit b eb perDigit m neg skip s).consumed ≤ skip + s.length := by
  rcases hm : scanMantissa digit s with ⟨i, f, len⟩
  rcases he : scanExponent m (s.drop len) with ⟨e, elen⟩
  have h1 : len ≤ s.length := by simpa [hm] using scanMantissa_le digit s
  have h2 : elen ≤ s.length - len := by simpa [he] using scanExponent_le m (s.drop len)
  by_cases hlen : len = 0
  · simp [scanNumber, hm, hlen]
  · simp only [scanNumber, hm, he, if_neg hlen]
    omega

theorem nanTail_le (s : Bytes) : nanTail s ≤ s.length := by
  cases s with
  | nil => simp [nanTail]
  | cons c t =>
    simp only [nanTail]
    split_ifs with h
    · have hlt := head?_eq_some_iff.mp h.2
      obtain ⟨u, hu⟩ := hlt
      have := congrArg List.length hu
      simp only [length_drop, length_cons] at this ⊢
      omega
    · exact Nat.zero_le _

theorem strtodRun_le (r : Bytes) : (strtodRun r).consumed ≤ r.length := by
  have hs := takeSign_length r
  have hlen : ∀ p : Bytes, p.isPrefixOf ((takeSign r).2.map tolower) = true →
      p.length ≤ (takeSign r).2.length := by
    intro p hp
    simpa using IsPrefix.length_le <| isPrefixOf_iff_prefix.mp hp
  simp only [strtodRun]
  split_ifs with h1 h2 h3 h4
  · have := hlen _ h1
    have h8 : (bytes "infinity").length = 8 := rfl
    simp only
    omega
  · have := hlen _ h2
    have h3 : (bytes "inf").length = 3 := rfl
    simp only
    omega
  · have := hlen _ h3
    have h3 : (bytes "nan").length = 3 := rfl
    have hn := nanTail_le ((takeSign r).2.drop 3)
    rw [length_drop] at hn
    simp only
    omega
  · have := hlen _ h4.1
    have h2 : (bytes "0x").length = 2 := rfl
    refine (scanNumber_le _).trans ?_
    rw [length_drop]
    omega
  · exact (scanNumber_le _).trans (by omega)

theorem takeWhile_numChar_append (s : Bytes) (ht : NumberEnds t) :
    (s ++ t).takeWhile numChar = s.takeWhile numChar := by
  have hnil : t.takeWhile numChar = [] := by
    cases t with
    | nil => rfl
    | cons c t => simp [ht c (by simp)]
  rw [takeWhile_append, hnil]
  split_ifs with h
  · rw [append_nil, (takeWhile_sublist numChar).eq_of_length h]
  · rfl

section

variable (hc : isspace c = false)
include hc

theorem strtod_cons (s : Bytes) : strtod (c :: s) = strtodRun ((c :: s).takeWhile numChar) := by
  simp only [strtod, dropWhile_cons, hc, Bool.false_eq_true, if_false, Nat.sub_self, Nat.zero_add]
  split_ifs <;> rfl

theorem strtod_append (s : Bytes) (ht : NumberEnds t) : strtod (c :: s ++ t) = strtod (c :: s) := by
  have h := takeWhile_numChar_append (c :: s) ht
  rw [cons_append] at h ⊢
  rw [strtod_cons hc, h, strtod_cons hc]

theorem strtod_consumed_le (s : Bytes) : (strtod (c :: s)).consumed ≤ (c :: s).length := by
  rw [strtod_cons hc]
  exact (strtodRun_le _).trans (takeWhile_sublist numChar).length_le

end

theorem numChar_of_isdigit (hc : isdigit c = true) : numChar c = true := by
  simp [numChar, hc]

theorem tolower_of_isdigit (hc : isdigit c = true) : tolower c = c := by
  obtain ⟨h1, h2⟩ := isdigit_iff.mp hc
  rw [tolower, if_neg]
  simp only [Bool.and_eq_true, decide_eq_true_eq, UInt8.le_iff_toNat_le, UInt8.reduceToNat]
  omega

theorem isspace_of_isdigit (hc : isdigit c = true) : isspace c = false := by
  obtain ⟨h1, h2⟩ := isdigit_iff.mp hc
  simp only [isspace, Bool.or_eq_false_iff, beq_eq_false_iff_ne, ne_eq, Bool.and_eq_false_iff,
    decide_eq_false_iff_not, UInt8.le_iff_toNat_le, ← UInt8.toNat_inj, UInt8.reduceToNat]
  omega

theorem ne_of_isdigit (hc : isdigit c = true) (hd : isdigit d = false) : c ≠ d := by
  rintro rfl; simp [hc] at hd

theorem strtol10_fmtNat {n : Nat} (hn : n < 2 ^ 63) (hc : isdigit c = false) (s : Bytes) :
    strtol10 (fmtNat n ++ c :: s) = n := by
  have hdigits : (fmtNat n ++ c :: s).takeWhile isdigit = fmtNat n := by
    rw [takeWhile_append_of_pos fun x hx => isdigit_of_mem_fmtNat hx]
    simp [hc]
  obtain ⟨d, ds, hd⟩ := exists_cons_of_ne_nil (fmtNat_ne_nil n)
  have hdig : isdigit d = true := isdigit_of_mem_fmtNat (hd ▸ mem_cons_self)
  have hsign : takeSign ((fmtNat n ++ c :: s).dropWhile isspace) = (false, fmtNat n ++ c :: s) := by
    rw [hd, cons_append, dropWhile_cons_of_neg (by simp [isspace_of_isdigit hdig]), takeSign,
      if_neg (ne_of_isdigit hdig (by decide)), if_neg (ne_of_isdigit hdig (by decide))]
  simp only [strtol10, hsign, hdigits, digitsVal_fmtNat, Bool.false_eq_true, if_false]
  omega

theorem not_isPrefixOf_digits (hds : ∀ c ∈ ds, isdigit c = true)
    (hd : isdigit d = false) : (d :: p).isPrefixOf ds = false := by
  cases ds with
  | nil => rfl
  | cons c ds =>
    have hne : d ≠ c := (ne_of_isdigit (hds c mem_cons_self) hd).symm
    simp [List.isPrefixOf, hne]

theorem scanNumber_digits (hds : ∀ c ∈ ds, isdigit c = true) (hne : ds ≠ [])
    (hlt : digitsVal 10 ds < 2 ^ 64) (neg : Bool) (skip : Nat) : scanNumber isdigit 10 10 1 101 neg skip ds =
      ⟨some (roundDouble (if neg then -(digitsVal 10 ds : ℚ) else digitsVal 10 ds)), skip + ds.length, false⟩ := by
  have htake : ds.takeWhile isdigit = ds := takeWhile_eq_self_iff.mpr hds
  have hdrop : ds.dropWhile isdigit = [] := dropWhile_eq_nil_iff.mpr hds
  have hm : scanMantissa isdigit ds = (ds, [], ds.length) := by
    simp [scanMantissa, htake, hdrop]
  have hlen : ds.length ≠ 0 := by simpa using hne
  have hrange : rangeError (digitsVal 10 ds) 1 = false := by
    have hbig : 2 ^ 64 ≤ 2 ^ 1024 - 2 ^ 970 := by decide +kernel
    simp only [rangeError, mul_one, Nat.mod_one, Bool.or_eq_false_iff, decide_eq_false_iff_not]
    exact ⟨by omega, fun h => h.2.2 rfl⟩
  simp only [scanNumber, hm, if_neg hlen, drop_length, scanExponent, append_nil,
    length_nil, Nat.cast_zero, mul_zero, sub_self, scaled, Int.toNat_zero, neg_zero, pow_zero,
    mul_one, hrange, Nat.add_zero, Nat.cast_one, div_one]

theorem strtodRun_digits (hds : ∀ c ∈ ds, isdigit c = true) (hne : ds ≠ [])
    (hlt : digitsVal 10 ds < 2 ^ 64) (r : Bytes) (neg : Bool) (hsign : takeSign r = (neg, ds)) :
    strtodRun r = ⟨some (roundDouble (if neg then -(digitsVal 10 ds : ℚ) else digitsVal 10 ds)),
      r.length - ds.length + ds.length, false⟩ := by
  have hlow : ds.map tolower = ds := by
    rw [map_congr_left fun c hc => tolower_of_isdigit (hds c hc), map_id']
  have hinf : (bytes "infinity").isPrefixOf ds = false := not_isPrefixOf_digits hds (by decide)
  have hinf' : (bytes "inf").isPrefixOf ds = false := not_isPrefixOf_digits hds (by decide)
  have hnan : (bytes "nan").isPrefixOf ds = false := not_isPrefixOf_digits hds (by decide)
  have hhex : (bytes "0x").isPrefixOf ds = false := by
    cases ds with
    | nil => rfl
    | cons c ds =>
      have := not_isPrefixOf_digits (p := []) (d := 120)
        (fun c hc => hds c (mem_cons_of_mem _ hc)) (by decide)
      change (48 == c && List.isPrefixOf [120] ds) = false
      rw [this, Bool.and_false]
  have hq := scanNumber_digits hds hne hlt neg (r.length - ds.length)
  simp only [strtodRun, hsign, hlow, hinf, hinf', hnan, hhex, hq, Bool.false_eq_true, false_and, if_false]

theorem numChar_of_mem_fmtInt (hc : c ∈ fmtInt n) : numChar c = true := by
  unfold fmtInt at hc
  split_ifs at hc
  · rcases mem_cons.mp hc with rfl | hc
    · rfl
    · exact numChar_of_isdigit (isdigit_of_mem_fmtNat hc)
  · exact numChar_of_isdigit (isdigit_of_mem_fmtNat hc)

theorem takeSign_fmtInt (n : Int) : takeSign (fmtInt n) = (decide (n < 0), fmtNat n.natAbs) := by
  unfold fmtInt
  split_ifs with h
  · simp [takeSign, h]
  · obtain ⟨c, s, hs⟩ := exists_cons_of_ne_nil (fmtNat_ne_nil n.natAbs)
    have hc : isdigit c = true := isdigit_of_mem_fmtNat (n := n.natAbs) (by simp [hs])
    simp [hs, takeSign, ne_of_isdigit hc (by decide : isdigit 45 = false),
      ne_of_isdigit hc (by decide : isdigit 43 = false), h]

theorem exists_cons_fmtInt (n : Int) :
    ∃ c s, fmtInt n = c :: s ∧ (c = 45 ∨ isdigit c = true) ∧ isspace c = false := by
  unfold fmtInt
  split_ifs with h
  · exact ⟨45, _, rfl, .inl rfl, rfl⟩
  · obtain ⟨c, s, hs⟩ := exists_cons_of_ne_nil (fmtNat_ne_nil n.natAbs)
    have hc : isdigit c = true := isdigit_of_mem_fmtNat (n := n.natAbs) (by simp [hs])
    exact ⟨c, s, hs, .inr hc, isspace_of_isdigit hc⟩

theorem strtod_fmtInt (hn : n.natAbs < 2 ^ 64) (ht : NumberEnds t) :
    strtod (fmtInt n ++ t) = ⟨some (roundDouble n), (fmtInt n).length, false⟩ := by
  obtain ⟨c, s, hs, -, hsp⟩ := exists_cons_fmtInt n
  have hrun := strtodRun_digits (fun c hc => isdigit_of_mem_fmtNat hc) (fmtNat_ne_nil n.natAbs)
    (by rwa [digitsVal_fmtNat]) (fmtInt n) _ (takeSign_fmtInt n)
  have hvalue : (if decide (n < 0) = true then -(digitsVal 10 (fmtNat n.natAbs) : ℚ)
      else digitsVal 10 (fmtNat n.natAbs)) =
      (n : ℚ) := by
    rw [digitsVal_fmtNat, Nat.cast_natAbs]
    split_ifs with h
    · rw [abs_of_neg (by simpa using h), Int.cast_neg, neg_neg]
    · rw [abs_of_nonneg (by simpa using h)]
  have hle : (fmtNat n.natAbs).length ≤ (fmtInt n).length := by
    simpa [takeSign_fmtInt] using takeSign_length (fmtInt n)
  have hall : (fmtInt n).takeWhile numChar = fmtInt n :=
    takeWhile_eq_self_iff.mpr fun c hc => numChar_of_mem_fmtInt hc
  rw [hs, strtod_append hsp s ht, strtod_cons hsp, ← hs, hall, hrun, hvalue, Nat.sub_add_cancel hle]

end CLib
