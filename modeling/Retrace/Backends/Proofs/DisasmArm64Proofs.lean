import Retrace.Backends.DisasmArm64

/-!
# The prologue check on arm64 admits position independent code only

A mask and a class are apart when the mask fixes a bit to another value than the class does. Each mask of
the list is apart from each class, or no word meets it at all.
-/

namespace Retrace.Backends

def Apart (mask value : BitVec 32) (lo : Nat) {len : Nat} (v : BitVec len) : Prop :=
  ∃ i < len, mask.getLsbD (lo + i) = true ∧ value.getLsbD (lo + i) ≠ v.getLsbD i

instance (mask value : BitVec 32) (lo len : Nat) (v : BitVec len) : Decidable (Apart mask value lo v) :=
  inferInstanceAs (Decidable (∃ i < len, _))

section

variable {insn mask value : BitVec 32}

theorem field_ne_of_apart (h : insn &&& mask = value) {v : BitVec len} (ha : Apart mask value lo v) :
    insn.extractLsb' lo len ≠ v := by
  rintro rfl
  obtain ⟨i, hi, hmask, hne⟩ := ha
  have hbit := congrArg (fun w => w.getLsbD (lo + i)) h
  simp only [BitVec.getLsbD_and, hmask, Bool.and_true] at hbit
  rw [BitVec.getLsbD_extractLsb', decide_eq_true hi, Bool.true_and, hbit] at hne
  exact hne rfl

theorem and_ne_of_bit (i : Nat) (hmask : mask.getLsbD i = false) (hvalue : value.getLsbD i = true) :
    insn &&& mask ≠ value := by
  rintro rfl
  rw [BitVec.getLsbD_and, hmask, Bool.and_false] at hvalue
  cases hvalue

theorem positionIndependent_of_mask (h : insn &&& mask = value) (hadr : Apart mask value 24 0b10000#5)
    (hliteral : Apart mask value 27 0b011#3) (hsystem : Apart mask value 26 0b101#3) :
    PositionIndependent insn where
  adr := field_ne_of_apart h hadr
  literal := fun hlit => field_ne_of_apart h hliteral hlit.1
  system := fun hsys => absurd hsys (field_ne_of_apart h hsystem)

end

theorem positionIndependent_of_relocatable {insn : BitVec 32} (h : insn_is_relocatable insn = true) :
    PositionIndependent insn := by
  unfold insn_is_relocatable at h
  split_ifs at h with hpac hnop hpair hadd hmov horr hreg hload
  · rcases hpac with rfl | rfl
    · exact ⟨by decide, by decide, fun _ => by decide⟩
    · exact ⟨by decide, by decide, fun _ => by decide⟩
  · rw [hnop]
    exact ⟨by decide, by decide, fun _ => by decide⟩
  · exact positionIndependent_of_mask hpair (by decide) (by decide) (by decide)
  · rcases hadd with hadd | hadd
    · exact positionIndependent_of_mask hadd (by decide) (by decide) (by decide)
    · exact absurd hadd (and_ne_of_bit 30 rfl rfl)
  · rcases hmov with hmov | hmov | hmov
    · exact positionIndependent_of_mask hmov (by decide) (by decide) (by decide)
    · exact positionIndependent_of_mask hmov (by decide) (by decide) (by decide)
    · exact positionIndependent_of_mask hmov (by decide) (by decide) (by decide)
  · exact absurd horr (and_ne_of_bit 29 rfl rfl)
  · rcases hreg with hreg | hreg
    · exact absurd hreg (and_ne_of_bit 5 rfl rfl)
    · exact absurd hreg (and_ne_of_bit 5 rfl rfl)
  · exact positionIndependent_of_mask hload (by decide) (by decide) (by decide)

theorem rounded_spec {n : UInt64} (hpos : (n + 3) / 4 * 4 ≠ 0) :
    ((n + 3) / 4 * 4).toNat % 4 = 0 ∧ n ≤ (n + 3) / 4 * 4 := by
  have hlt := n.toNat_lt
  have hnat : ((n + 3) / 4 * 4).toNat = (n.toNat + 3) % 2 ^ 64 / 4 * 4 := by
    simp only [UInt64.toNat_mul, UInt64.toNat_div, UInt64.toNat_add, UInt64.reduceToNat]
    omega
  have hne : ((n + 3) / 4 * 4).toNat ≠ 0 := fun h => hpos (UInt64.toNat_inj.mp h)
  rw [UInt64.le_iff_toNat_le, hnat]
  omega

/-- A prologue that is accepted is made of whole instructions within the bounds, all of them position
independent. -/
theorem arm64_prologue_admits {code : Option (Nat → UInt8)} {min_bytes max_scan n : UInt64}
    (h : retrace_disasm_arm64_prologue_len code min_bytes max_scan = n) (hn : 0 < n) :
    n.toNat % 4 = 0 ∧ min_bytes ≤ n ∧ n ≤ max_scan ∧
      ∃ c, code = some c ∧ ∀ off, off % 4 = 0 → off + 4 ≤ n.toNat → PositionIndependent (word_at c off) := by
  have hne : n ≠ 0 := fun h0 => absurd hn (by simp [h0])
  unfold retrace_disasm_arm64_prologue_len at h
  cases code with
  | none => exact absurd h.symm hne
  | some c =>
    dsimp only at h
    split_ifs at h with hbounds hmax hall
    · exact absurd h.symm hne
    · exact absurd h.symm hne
    · subst h
      obtain ⟨hfour, hmin⟩ := rounded_spec hne
      refine ⟨hfour, hmin, UInt64.not_lt.mp hmax, c, rfl, fun off hoff hle => ?_⟩
      refine positionIndependent_of_relocatable ?_
      have hmem := List.all_eq_true.mp hall (off / 4) (List.mem_range.mpr (by omega))
      rwa [Nat.mul_div_cancel' (Nat.dvd_of_mod_eq_zero hoff)] at hmem
    · exact absurd h.symm hne

/-- Four times `stp x29, x30, [sp, #-16]!`. -/
theorem arm64_prologue_stp :
    retrace_disasm_arm64_prologue_len (some fun i => [0xFD, 0x7B, 0xBF, 0xA9].getD (i % 4) 0) 14 32 = 16 ∧
    ∀ off, off % 4 = 0 → off + 4 ≤ 16 →
      PositionIndependent (word_at (fun i => [0xFD, 0x7B, 0xBF, 0xA9].getD (i % 4) 0) off) := by
  refine ⟨by decide, ?_⟩
  obtain ⟨-, -, -, c, hc, hall⟩ := @arm64_prologue_admits
    (some fun i => [0xFD, 0x7B, 0xBF, 0xA9].getD (i % 4) 0) 14 32 16 (by decide) (by decide)
  obtain rfl := Option.some.inj hc
  exact hall

end Retrace.Backends
