import Retrace.CLib.Proofs.CStringProofs

/-!
# Facts about buffers
-/

namespace CLib

open List

@[simp]
theorem memcpy_length (h : off + src.length ≤ buf.length) : (memcpy buf off src).length = buf.length := by
  simp only [memcpy, length_append, length_take, length_drop]
  omega

@[simp]
theorem memmove_length (h : off + n ≤ buf.length) : (memmove buf off n).length = buf.length := by
  simp only [memmove, length_append, length_take, length_drop]
  omega

theorem take_memcpy (h : off ≤ buf.length) :
    (memcpy buf off src).take (off + src.length) = buf.take off ++ src := by
  have hlen : (buf.take off ++ src).length = off + src.length := by simp [h]
  rw [memcpy, ← hlen, take_left]

theorem take_memmove (h : off + n ≤ buf.length) : (memmove buf off n).take n = (buf.drop off).take n := by
  have hlen : ((buf.drop off).take n).length = n := by
    rw [length_take, length_drop]
    omega
  rw [memmove, take_append_of_le_length (by omega), take_take, Nat.min_self]

theorem cstr_append (hs : 0 ∉ s) (t : Bytes) : cstr (s ++ t) = s ++ cstr t := by
  unfold cstr
  rw [takeWhile_append_of_pos]
  intro c hc
  exact decide_eq_true (fun h => hs (h ▸ hc))

@[simp]
theorem cstr_zero_cons (s : Bytes) : cstr (0 :: s) = [] := by simp [cstr]

theorem cstr_cons (hc : c ≠ 0) (s : Bytes) : cstr (c :: s) = c :: cstr s := by
  simp [cstr, hc]

theorem take_of_cstr (hz : cstr s = z) : s.take z.length = z := by
  have hpre : z <+: s := hz ▸ takeWhile_prefix _
  exact (prefix_iff_eq_take.mp hpre).symm

theorem strchr_of_not_mem (h : c ∉ cstr buf) : strchr buf c = none := by
  rw [strchr, findIdx?_eq_none_iff]
  intro x hx
  exact decide_eq_false (fun hc => h (hc ▸ hx))

theorem strchr_of_cstr (hl : c ∉ l) (h : cstr buf = l ++ c :: t) : strchr buf c = some l.length := by
  rw [strchr, h, findIdx?_append]
  have hnone : l.findIdx? (fun x => decide (x = c)) = none := by
    rw [findIdx?_eq_none_iff]
    intro x hx
    exact decide_eq_false (fun hc => hl (hc ▸ hx))
  simp [hnone, findIdx?_cons]

end CLib
