import Retrace.Json.Serialize

/-!
# Well-formed text

What keeps a string well formed: putting two such strings together, taking away an ASCII character at the end,
and replacing one ASCII character by another.
-/

namespace Retrace.Parson

open CLib List

theorem num_bytes_eq_one (hc : c < 0x80) : num_bytes_in_utf8_sequence c = 1 := by
  have hlt : c.toNat < 128 := by simpa [UInt8.lt_iff_toNat_lt] using hc
  have hne : ¬(c = 0xC0 ∨ c = 0xC1 ∨ 0xF4 < c ∨ is_cont c = true) := by
    simp only [is_cont, Bool.and_eq_true, decide_eq_true_eq, UInt8.le_iff_toNat_le, UInt8.lt_iff_toNat_lt,
      ← UInt8.toNat_inj, UInt8.reduceToNat]
    omega
  rw [num_bytes_in_utf8_sequence, if_neg hne, if_pos hc]

theorem is_cont_le (hc : is_cont c = true) : 0x80 ≤ c := by
  simp only [is_cont, Bool.and_eq_true, decide_eq_true_eq] at hc
  exact hc.1

theorem verify_ascii (hs : s.getD 0 0 < 0x80) : verify_utf8_sequence s = some 1 := by
  have hlt : (s.getD 0 0).toNat < 128 := by simpa [UInt8.lt_iff_toNat_lt] using hs
  simp only [verify_utf8_sequence, num_bytes_eq_one hs, if_true]
  rw [if_neg (by omega), if_neg (by omega), if_neg (by omega)]

theorem verify_spec (h : verify_utf8_sequence s = some n) :
    n = num_bytes_in_utf8_sequence (s.getD 0 0) ∧ 1 ≤ n ∧ n ≤ 4 ∧ ∀ i, 0 < i → i < n →
      is_cont (s.getD i 0) = true := by
  simp only [verify_utf8_sequence] at h
  split at h
  · cases h
  · next cp hcp =>
    split_ifs at h with h1 h2 h3
    cases h
    refine ⟨rfl, ?_⟩
    split_ifs at hcp with hlen hlen hlen hlen
    · rw [hlen]
      exact ⟨le_rfl, by omega, fun i hi hlt => by omega⟩
    · rw [hlen.1]
      refine ⟨by omega, by omega, fun i hi hlt => ?_⟩
      obtain rfl : i = 1 := by omega
      exact hlen.2
    · rw [hlen.1]
      refine ⟨by omega, by omega, fun i hi hlt => ?_⟩
      obtain rfl | rfl : i = 1 ∨ i = 2 := by omega
      · exact hlen.2.1
      · exact hlen.2.2
    · rw [hlen.1]
      refine ⟨by omega, by omega, fun i hi hlt => ?_⟩
      obtain rfl | rfl | rfl : i = 1 ∨ i = 2 ∨ i = 3 := by omega
      · exact hlen.2.1
      · exact hlen.2.2.1
      · exact hlen.2.2.2

theorem verify_le_length (hs : s ≠ []) (h : verify_utf8_sequence s = some n) : n ≤ s.length := by
  obtain ⟨-, -, -, hcont⟩ := verify_spec h
  have hpos := length_pos_iff.mpr hs
  by_contra hlt
  have hlast := hcont s.length hpos (not_le.mp hlt)
  simp [getD_eq_getElem?_getD, is_cont] at hlast

theorem verify_congr (h : verify_utf8_sequence s = some n)
    (heq : ∀ i < n, t.getD i 0 = s.getD i 0) : verify_utf8_sequence t = some n := by
  obtain ⟨hn, hpos, hle, -⟩ := verify_spec h
  rw [← h]
  simp only [verify_utf8_sequence, heq 0 hpos, ← hn]
  simp only [getD_eq_getElem?_getD] at heq ⊢
  obtain rfl | rfl | rfl | rfl : n = 1 ∨ n = 2 ∨ n = 3 ∨ n = 4 := by omega
  · simp
  · simp [heq 1 (by omega)]
  · simp [heq 1 (by omega), heq 2 (by omega)]
  · simp [heq 1 (by omega), heq 2 (by omega), heq 3 (by omega)]

theorem utf8_loop_fuel (h : s.length ≤ fuel) : utf8_loop fuel s = is_valid_utf8 s := by
  rw [is_valid_utf8]
  generalize hn : s.length = n at h
  induction n using Nat.strong_induction_on generalizing s fuel with
  | _ n ih =>
    subst hn
    cases s with
    | nil => cases fuel <;> rfl
    | cons c s =>
      obtain ⟨fuel, rfl⟩ : ∃ m, fuel = m + 1 := Nat.exists_eq_succ_of_ne_zero (by simp at h; omega)
      rw [length_cons, utf8_loop, utf8_loop]
      cases hv : verify_utf8_sequence (c :: s) with
      | none => rfl
      | some len =>
        obtain ⟨-, hpos, -, -⟩ := verify_spec hv
        have hlen : ((c :: s).drop len).length ≤ s.length := by
          rw [length_drop, length_cons]
          omega
        have hlt : ((c :: s).drop len).length < (c :: s).length := by
          rw [length_cons]
          omega
        dsimp only
        rw [ih _ hlt rfl hlen, ih _ hlt rfl (by rw [length_cons] at h; omega)]

theorem is_valid_utf8_of_ne_nil (hs : s ≠ []) : is_valid_utf8 s = true ↔
    ∃ n, verify_utf8_sequence s = some n ∧ is_valid_utf8 (s.drop n) = true := by
  cases s with
  | nil => exact absurd rfl hs
  | cons c s =>
    rw [is_valid_utf8, length_cons, utf8_loop]
    cases hv : verify_utf8_sequence (c :: s) with
    | none => simp
    | some len =>
      obtain ⟨-, hpos, -, -⟩ := verify_spec hv
      have hlen : ((c :: s).drop len).length ≤ s.length := by
        rw [length_drop, length_cons]
        omega
      simp [utf8_loop_fuel hlen]

theorem utf8_induction {motive : (s : Bytes) → is_valid_utf8 s = true → Prop} (nil : motive [] rfl)
    (sequence : ∀ s n h hrest, s ≠ [] → verify_utf8_sequence s = some n → motive (s.drop n) hrest → motive s h)
    (h : is_valid_utf8 s = true) : motive s h := by
  generalize hn : s.length = n
  induction n using Nat.strong_induction_on generalizing s with
  | _ n ih =>
    by_cases hs : s = []
    · subst hs
      exact nil
    · obtain ⟨len, hv, hrest⟩ := (is_valid_utf8_of_ne_nil hs).mp h
      obtain ⟨-, hpos, -, -⟩ := verify_spec hv
      have hlt : (s.drop len).length < n := by
        have := length_pos_iff.mpr hs
        rw [length_drop]
        omega
      exact sequence s len h hrest hs hv (ih _ hlt hrest rfl)

theorem getD_append_left {i : Nat} (hi : i < s.length) (t : Bytes) : (s ++ t).getD i 0 = s.getD i 0 := by
  rw [getD_eq_getElem?_getD, getD_eq_getElem?_getD, getElem?_append_left hi]

theorem verify_append (hs : s ≠ []) (h : verify_utf8_sequence s = some n) :
    verify_utf8_sequence (s ++ t) = some n := by
  have hle := verify_le_length hs h
  refine verify_congr h fun i hi => ?_
  rw [getD_append_left (by omega)]

theorem is_valid_utf8_append (hs : is_valid_utf8 s = true) (ht : is_valid_utf8 t = true) :
    is_valid_utf8 (s ++ t) = true := by
  induction hs using utf8_induction with
  | nil => exact ht
  | sequence s n _ _ hne hv ih =>
    refine (is_valid_utf8_of_ne_nil (by simp [hne])).mpr ⟨n, verify_append hne hv, ?_⟩
    rw [drop_append_of_le_length (verify_le_length hne hv)]
    exact ih

theorem is_valid_utf8_of_ascii (h : ∀ c ∈ s, c < 0x80) : is_valid_utf8 s = true := by
  induction s with
  | nil => rfl
  | cons c s ih =>
    refine (is_valid_utf8_of_ne_nil (by simp)).mpr ⟨1, verify_ascii (h c (by simp)), ?_⟩
    exact ih fun d hd => h d (mem_cons_of_mem _ hd)

theorem is_valid_utf8_of_append_ascii (hc : c < 0x80)
    (h : is_valid_utf8 (s ++ c :: t) = true) : is_valid_utf8 s = true ∧ is_valid_utf8 t = true := by
  generalize hw : s ++ c :: t = w at h
  induction h using utf8_induction generalizing s with
  | nil => simp at hw
  | sequence w n _ hrest hne hv ih =>
    subst hw
    obtain ⟨hn, hpos, -, hcont⟩ := verify_spec hv
    cases s with
    | nil =>
      rw [nil_append, verify_ascii (s := c :: t) hc] at hv
      obtain rfl : 1 = n := by simpa using hv
      exact ⟨rfl, hrest⟩
    | cons d s =>
      -- the sequence ends in front of the character, which does not continue it
      have hle : n ≤ (d :: s).length := by
        by_contra hlt
        have hbad := hcont (d :: s).length (by simp) (by omega)
        simp only [getD_eq_getElem?_getD, getElem?_append_right le_rfl, Nat.sub_self, getElem?_cons_zero,
          Option.getD_some] at hbad
        exact absurd (is_cont_le hbad) (UInt8.not_le.mpr hc)
      obtain ⟨hs, ht⟩ := ih (s := (d :: s).drop n) (by rw [drop_append_of_le_length hle])
      refine ⟨(is_valid_utf8_of_ne_nil (by simp)).mpr ⟨n, verify_congr hv fun i hi => ?_, hs⟩, ht⟩
      rw [getD_append_left (by omega)]

theorem is_valid_utf8_map {f : UInt8 → UInt8} (hascii : ∀ c < 0x80, f c < 0x80) (hrest : ∀ c, 0x80 ≤ c → f c = c)
    (h : is_valid_utf8 s = true) : is_valid_utf8 (s.map f) = true := by
  induction h using utf8_induction with
  | nil => rfl
  | sequence s n _ _ hne hv ih =>
    obtain ⟨hn, hpos, -, hcont⟩ := verify_spec hv
    have hle := verify_le_length hne hv
    have hget : ∀ i < n, (s.map f).getD i 0 = f (s.getD i 0) := by
      intro i hi
      simp [getD_eq_getElem?_getD, getElem?_eq_getElem (show i < s.length by omega)]
    refine (is_valid_utf8_of_ne_nil (by simpa using hne)).mpr ⟨n, ?_, by rw [← map_drop]; exact ih⟩
    by_cases hlow : s.getD 0 0 < 0x80
    · obtain rfl : n = 1 := by rw [hn, num_bytes_eq_one hlow]
      refine verify_ascii ?_
      rw [hget 0 hpos]
      exact hascii _ hlow
    · refine verify_congr hv fun i hi => ?_
      rw [hget i hi]
      refine hrest _ ?_
      rcases Nat.eq_zero_or_pos i with rfl | hi0
      · exact UInt8.not_lt.mp hlow
      · exact is_cont_le (hcont i hi0 hi)

end Retrace.Parson
