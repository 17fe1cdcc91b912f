import Retrace.Backends.Disasm

/-!
# Where the decoder finds the boundaries

The decoder and the instruction set are compared opcode by opcode. They differ in the immediate operands behind
the prefix `66`, in an SIB byte with the base 101, in the long `nop`, in the encodings that are no instruction, and
the decoder does not see when a `mov` goes on behind the bytes it was given or when there are too many prefixes. An
instruction it accepts has the length it says exactly when it is none of these; a prologue of such instructions is
split where it should be.
-/

namespace Retrace.Backends

open CLib Option List

variable {tail : Bytes} {n : Nat}

theorem shiftRight_six_cases (c : UInt8) : c >>> 6 = 0 ∨ c >>> 6 = 1 ∨ c >>> 6 = 2 ∨ c >>> 6 = 3 := by
  have hlt := c.toNat_lt
  have hdiv : (c >>> 6).toNat = c.toNat / 64 := by
    rw [UInt8.toNat_shiftRight]
    exact Nat.shiftRight_eq_div_pow _ 6
  have hsmall : c.toNat / 64 = 0 ∨ c.toNat / 64 = 1 ∨ c.toNat / 64 = 2 ∨ c.toNat / 64 = 3 := by omega
  simp only [← UInt8.toNat_inj, hdiv]
  exact hsmall

theorem modrm_size_cons : modrm_size (modrm :: rest) =
      if modrm >>> 6 = 0 ∧ modrm &&& 7 = 5 then none else some (address_count modrm) := by
  rw [modrm_size, modrm_extra, address_count]
  by_cases h4 : modrm &&& 7 = 4
  · rcases shiftRight_six_cases modrm with h | h | h | h <;> simp [h, h4]
  · have hbeq : (modrm &&& 7 == 4) = false := by simpa using h4
    rcases shiftRight_six_cases modrm with h | h | h | h
    · by_cases h5 : modrm &&& 7 = 5 <;> simp [h, h5, h4, hbeq]
    all_goals simp [h, h4, hbeq]

theorem modrm_size_eq_none : modrm_size tail = none ↔ rip_relative tail = true := by
  cases tail with
  | nil => simp [modrm_size, modrm_extra, rip_relative]
  | cons modrm rest => simp [modrm_size_cons, rip_relative]

theorem operand_fits_eq (h : modrm_size tail = some n) (imm : Nat) :
    operand_fits tail imm = decide (n + imm ≤ tail.length) := by
  have hrip : rip_relative tail = false := by
    rw [← Bool.not_eq_true, ← modrm_size_eq_none, h]
    simp
  cases tail with
  | nil => simp [modrm_size, modrm_extra] at h
  | cons modrm rest =>
    rw [modrm_size_cons] at h
    split_ifs at h
    cases h
    simp [operand_fits, hrip]

theorem operand_bytes_eq (h : modrm_size tail = some n) (hlen : n ≤ tail.length)
    (hbase : sib_base101 tail = false) : operand_bytes tail = some n := by
  cases tail with
  | nil => simp [modrm_size, modrm_extra] at h
  | cons modrm rest =>
    obtain ⟨x, hx, rfl⟩ := map_eq_some_iff.mp h
    rw [modrm_extra] at hx
    rcases shiftRight_six_cases modrm with hmod | hmod | hmod | hmod
    · by_cases hrm : modrm &&& 7 = 5
      · simp [hmod, hrm] at hx
      · by_cases hsib : modrm &&& 7 = 4
        · simp [hmod, hsib] at hx
          subst hx
          cases rest with
          | nil => simp at hlen
          | cons sib rest =>
            have hsib' : sib &&& 7 ≠ 5 := by simpa [sib_base101, hmod, hsib] using hbase
            simp [operand_bytes, hmod, hsib, hsib']
        · simp [hmod, hrm] at hx
          subst hx
          simp [operand_bytes, hmod, hrm, hsib]
    · by_cases hsib : modrm &&& 7 = 4
      · simp [hmod, hsib] at hx
        subst hx
        cases rest with
        | nil => simp at hlen
        | cons sib rest => simp [operand_bytes, hmod, hsib]
      · simp [hmod] at hx
        subst hx
        simp [operand_bytes, hmod, hsib]
    · by_cases hsib : modrm &&& 7 = 4
      · simp [hmod, hsib] at hx
        subst hx
        cases rest with
        | nil => simp at hlen
        | cons sib rest => simp [operand_bytes, hmod, hsib]
      · simp [hmod] at hx
        subst hx
        simp [operand_bytes, hmod, hsib]
    · simp [hmod] at hx
      subst hx
      simp [operand_bytes, hmod]

theorem operand_bytes_pos (h : operand_bytes tail = some n) : 0 < n := by
  cases tail with
  | nil => simp [operand_bytes] at h
  | cons modrm rest =>
    rw [operand_bytes] at h
    dsimp only at h
    split_ifs at h
    · cases h
      exact Nat.one_pos
    all_goals first
      | (obtain ⟨sib, -, hsib⟩ := map_eq_some_iff.mp h
         split_ifs at hsib <;> omega)
      | (cases h
         omega)

theorem operand_bytes_base101 (hmodrm : modrm_size tail = some k) (hbase : sib_base101 tail = true) :
    k = 2 ∧ operand_bytes tail = some 6 := by
  match tail with
  | [] => simp [sib_base101] at hbase
  | [modrm] => simp [sib_base101] at hbase
  | modrm :: sib :: rest =>
    simp only [sib_base101, Bool.and_eq_true, beq_iff_eq] at hbase
    obtain ⟨⟨hmod, hrm⟩, hsib⟩ := hbase
    have hk : 2 = k := by simpa [modrm_size, modrm_extra, hmod, hrm] using hmodrm
    exact ⟨hk.symm, by simp [operand_bytes, hmod, hrm, hsib]⟩

def CountsRight (opsize16 rex_w : Bool) (tail : Bytes) (o : Opcode) : Prop :=
  ∀ n, operand_size rex_w tail o = some n → insn_operands opsize16 rex_w tail o = some n ∧ n ≤ tail.length

/-- An arm with ModR/M and an immediate operand is right when the decoder refuses it, or when the address has not
the base 101 and the immediate operand the size that the decoder takes. -/
theorem counts_modrm_imm {imm size : Nat} {ok : Bool} (hsize : size + 4 ≠ imm) :
    (∀ n, modrm_imm tail imm = some n →
        (if ok then (operand_bytes tail).map (· + size) else none) = some n ∧ n ≤ tail.length) ↔
      (operand_fits tail imm && (decide (size ≠ imm) || sib_base101 tail || !ok)) = false := by
  cases hmodrm : modrm_size tail with
  | none =>
    have hfits : operand_fits tail imm = false := by simp [operand_fits, modrm_size_eq_none.mp hmodrm]
    simp [modrm_imm, hmodrm, hfits]
  | some k =>
    have hfits := operand_fits_eq hmodrm imm
    by_cases hlen : k + imm ≤ tail.length
    · have hsome : modrm_imm tail imm = some (k + imm) := by
        rw [modrm_imm, hmodrm, bind_some, if_neg (by omega)]
      simp only [hsome, hfits, hlen, decide_true, Bool.true_and, some.injEq, forall_eq']
      cases hbase : sib_base101 tail with
      | true =>
        obtain ⟨rfl, hbytes⟩ := operand_bytes_base101 hmodrm hbase
        cases ok with
        | false => simp
        | true =>
          simp only [hbytes, if_true, map_some, some.injEq, Bool.or_true, Bool.true_or]
          constructor
          · rintro ⟨h, -⟩
            omega
          · simp
      | false =>
        rw [operand_bytes_eq hmodrm (by omega) hbase]
        cases ok <;> simp
    · have hnone : modrm_imm tail imm = none := by
        rw [modrm_imm, hmodrm, bind_some, if_pos (by omega)]
      simp [hnone, hfits, hlen]

theorem counts_modrm {ok : Bool} :
    (∀ n, modrm_size tail = some n → (if ok then operand_bytes tail else none) = some n ∧ n ≤ tail.length) ↔
      (!rip_relative tail && (!operand_fits tail 0 || sib_base101 tail || !ok)) = false := by
  cases hmodrm : modrm_size tail with
  | none => simp [modrm_size_eq_none.mp hmodrm]
  | some k =>
    have hrip : rip_relative tail = false := by
      rw [← Bool.not_eq_true, ← modrm_size_eq_none, hmodrm]
      simp
    have hfits := operand_fits_eq hmodrm 0
    rw [Nat.add_zero] at hfits
    simp only [hrip, hfits, Bool.not_false, Bool.true_and, some.injEq, forall_eq']
    by_cases hlen : k ≤ tail.length
    · cases hbase : sib_base101 tail with
      | true =>
        obtain ⟨rfl, hbytes⟩ := operand_bytes_base101 hmodrm hbase
        cases ok <;> simp [hbytes]
      | false =>
        rw [operand_bytes_eq hmodrm hlen hbase]
        cases ok <;> simp [hlen]
    · simp [hlen]

theorem counts_imm {imm size : Nat} : (∀ n, imm_only tail imm = some n → some size = some n ∧ n ≤ tail.length) ↔
      (decide (size ≠ imm) && decide (imm ≤ tail.length)) = false := by
  by_cases hlen : imm ≤ tail.length
  · have hsome : imm_only tail imm = some imm := by rw [imm_only, if_neg (by omega)]
    simp [hsome, hlen]
  · have hnone : imm_only tail imm = none := by rw [imm_only, if_pos (by omega)]
    simp [hnone, hlen]

theorem counts_escape : CountsRight opsize16 rex_w tail .escape ↔ (tail.head? == some 0x1F) = false := by
  rw [CountsRight, operand_size, insn_operands]
  match tail with
  | [] => simp [two_byte]
  | second :: rest =>
    by_cases h1e : second = 0x1E
    · subst h1e
      by_cases hfa : rest.head? = some 0xFA
      · obtain ⟨rest, rfl⟩ : ∃ r, rest = 0xFA :: r := by
          cases rest with
          | nil => simp at hfa
          | cons c r => exact ⟨r, by rw [head?_cons, some.injEq] at hfa; rw [hfa]⟩
        simp [two_byte]
      · simp [two_byte, hfa]
    · by_cases h1f : second = 0x1F
      · subst h1f
        have hsize : two_byte (0x1F :: rest) = some 1 := rfl
        simp only [hsize, some.injEq, forall_eq', head?_cons, tail_cons]
        constructor
        · rintro ⟨h, -⟩
          rw [if_neg (by decide), if_pos trivial] at h
          obtain ⟨n, hn, heq⟩ := map_eq_some_iff.mp h
          have := operand_bytes_pos hn
          omega
        · simp
      · simp [two_byte, h1e, h1f]

theorem imm_bytes_ne : decide (imm_bytes opsize16 rex_w ≠ 4) = (opsize16 && !rex_w) := by
  cases opsize16 <;> cases rex_w <;> rfl

theorem counts_right_iff (opsize16 rex_w : Bool) (tail : Bytes) (o : Opcode) :
    CountsRight opsize16 rex_w tail o ↔ misread opsize16 rex_w tail o = false := by
  have himm : imm_bytes opsize16 rex_w + 4 ≠ 4 := by cases opsize16 <;> cases rex_w <;> decide
  cases o with
  | plain => simp [CountsRight, operand_size, insn_operands, misread]
  | relative => simp [CountsRight, operand_size, misread]
  | other => simp [CountsRight, operand_size, misread]
  | escape => exact counts_escape
  | mov_reg_imm =>
    cases rex_w with
    | true =>
      refine (@counts_imm tail 8 8).trans ?_
      simp [misread]
    | false =>
      refine (@counts_imm tail 4 (imm_bytes opsize16 false)).trans ?_
      rw [imm_bytes_ne]
      rfl
  | push_imm =>
    refine (@counts_imm tail 4 (imm_bytes opsize16 rex_w)).trans ?_
    rw [imm_bytes_ne]
    rfl
  | mov_reg_imm8 =>
    refine (@counts_imm tail 1 1).trans ?_
    simp [misread]
  | push_imm8 =>
    refine (@counts_imm tail 1 1).trans ?_
    simp [misread]
  | mov_imm =>
    have h := @counts_modrm_imm tail 4 (imm_bytes opsize16 rex_w) (opcode_extension tail == some 0) himm
    rw [imm_bytes_ne] at h
    simpa [CountsRight, operand_size, insn_operands, misread, bne] using h
  | arith_imm8 =>
    have h := @counts_modrm_imm tail 1 1 true (by simp)
    simpa [CountsRight, operand_size, insn_operands, misread] using h
  | arith_imm =>
    have h := @counts_modrm_imm tail 4 (imm_bytes opsize16 rex_w) true himm
    rw [imm_bytes_ne] at h
    simpa [CountsRight, operand_size, insn_operands, misread] using h
  | mov =>
    have h := @counts_modrm tail true
    simpa [CountsRight, operand_size, insn_operands, misread] using h
  | lea =>
    have h := @counts_modrm tail (!is_register tail)
    simpa [CountsRight, operand_size, insn_operands, misread] using h

def DecodesRight (code : Bytes) : Prop := 0 < decode_one code → insn_length code = some (decode_one code)

theorem decodes_right_iff : DecodesRight code ↔ ¬ Misread code := by
  rw [DecodesRight, Misread, decode_one, insn_length]
  cases hhead : read_head code with
  | none => simp
  | some h =>
    have hcounts := counts_right_iff (h.prefixes.contains 0x66) h.has_rex_w h.tail (opcode h.op)
    simp only [Option.mem_def, some.injEq, exists_eq_left', Bool.not_eq_true, Bool.or_eq_false_iff, ← hcounts,
      CountsRight, Head.too_long, bind_some]
    cases hsize : operand_size h.has_rex_w h.tail (opcode h.op) with
    | none => simp
    | some n =>
      have hpos : 0 < h.size + n := by
        rw [Head.size]
        omega
      simp only [elim_some, hpos, true_imp_iff, some.injEq, forall_eq', any_some, decide_eq_false_iff_not, not_lt]
      constructor
      · intro hlen
        obtain ⟨k, hk, hfit⟩ := bind_eq_some_iff.mp hlen
        split_ifs at hfit with hle
        obtain rfl : k = n := by
          have := some.inj hfit
          omega
        exact ⟨⟨hk, hle.1⟩, hle.2⟩
      · rintro ⟨⟨hk, hle⟩, hmax⟩
        rw [hk, bind_some, if_pos ⟨hle, hmax⟩]

theorem insn_length_le (h : insn_length code = some n) : n ≤ code.length := by
  obtain ⟨hd, hhead, hn⟩ := bind_eq_some_iff.mp h
  obtain ⟨k, -, hk⟩ := bind_eq_some_iff.mp hn
  split_ifs at hk with hle
  cases hk
  have hlen : hd.size + hd.tail.length = code.length := by
    have hsplit := congrArg length (takeWhile_append_dropWhile (p := is_legacy) (l := code))
    rw [length_append] at hsplit
    rw [read_head] at hhead
    cases hrest : code.dropWhile is_legacy with
    | nil => simp [hrest] at hhead
    | cons r rest =>
      rw [hrest] at hhead hsplit
      dsimp only at hhead
      split_ifs at hhead with hrex
      · cases rest with
        | nil => simp at hhead
        | cons op tail =>
          cases hhead
          simp only [Head.size, length_cons, Bool.toNat_true] at hsplit ⊢
          omega
      · cases hhead
        simp only [Head.size, length_cons, Bool.toNat_false] at hsplit ⊢
        omega
  omega

@[simp] theorem length_window (code : Nat → UInt8) :
    (window code total max_scan).length = max_scan - total := by simp [window]

def SplitsRight (code : Nat → UInt8) (min_bytes max_scan : Nat) : Prop :=
  0 < retrace_disasm_x64_prologue_len code min_bytes max_scan →
    min_bytes ≤ retrace_disasm_x64_prologue_len code min_bytes max_scan ∧
      retrace_disasm_x64_prologue_len code min_bytes max_scan ≤ max_scan ∧
      Splits code max_scan (retrace_disasm_x64_prologue_len code min_bytes max_scan)

theorem prologue_loop_splits
    (h : ∀ total, total < min_bytes → Splits code max_scan total → ¬ Misread (window code total max_scan))
    (htotal : Splits code max_scan total) (hle : total ≤ max_scan)
    (hn : prologue_loop code min_bytes max_scan fuel total = n) (hpos : 0 < n) :
    min_bytes ≤ n ∧ n ≤ max_scan ∧ Splits code max_scan n := by
  induction fuel generalizing total with
  | zero =>
    rw [prologue_loop] at hn
    omega
  | succ fuel ih =>
    rw [prologue_loop] at hn
    dsimp only at hn
    split_ifs at hn with hmin hmax hone
    · omega
    · omega
    · have hright := decodes_right_iff.mpr (h total hmin htotal) (Nat.pos_of_ne_zero hone)
      have hinside := insn_length_le hright
      rw [length_window] at hinside
      exact ih (htotal.insn hright) (by omega) hn
    · subst hn
      exact ⟨by omega, hle, htotal⟩

/-- One instruction is decoded right exactly when it is none of those that the decoder takes for others, and a
prologue without such an instruction is split where it should be. -/
theorem disasm_right (insn : Bytes) (code : Nat → UInt8) (min_bytes max_scan : Nat) :
    (DecodesRight insn ↔ ¬ Misread insn) ∧
      ((∀ total, total < min_bytes → Splits code max_scan total → ¬ Misread (window code total max_scan)) →
        SplitsRight code min_bytes max_scan) := by
  refine ⟨decodes_right_iff, ?_⟩
  intro h hpos
  exact prologue_loop_splits h Splits.nil (Nat.zero_le _) rfl hpos

def usualPrologue : Nat → UInt8 := fun i => [0x55, 0x48, 0x89, 0xE5].getD i 0x90

/-- The usual prologue is split. -/
theorem disasm_usual : SplitsRight usualPrologue 4 4 := by
  refine (disasm_right [] usualPrologue 4 4).2 fun total htotal hsplit => ?_
  have hwindow : ∀ t < 4, ¬ Misread (window usualPrologue t 4) := by
    intro t ht
    rw [← decodes_right_iff, DecodesRight]
    interval_cases t <;> decide
  exact hwindow total htotal

def shortMov : Nat → UInt8 := fun i => [0x66, 0xB8, 0x01, 0x00, 0x48, 0x89, 0xE5].getD i 0x90

/-- `mov ax, 1` has four bytes and is taken for one of six, which end inside the `mov rbp, rsp` behind it;
and a `mov` with a displacement of four bytes gives a prologue of seven bytes where five may be looked at. -/
theorem disasm_goes_wrong : ¬SplitsRight shortMov 5 8 ∧
    ¬SplitsRight (fun i => [0x90, 0x8B, 0x80, 0, 0, 0, 0].getD i 0) 5 5 := by
  have hbounds : ∀ total, Splits shortMov 8 total → total = 0 ∨ total = 4 ∨ total = 7 ∨ total = 8 := by
    have hlength : insn_length (window shortMov 0 8) = some 4 ∧ insn_length (window shortMov 4 8) = some 3 ∧
        insn_length (window shortMov 7 8) = some 1 ∧ insn_length (window shortMov 8 8) = none := by decide
    intro total h
    induction h with
    | nil => simp
    | insn _ hinsn ih =>
      rcases ih with rfl | rfl | rfl | rfl
      · simp_all
      · simp_all
      · simp_all
      · simp_all
  refine ⟨fun h => ?_, fun h => ?_⟩
  · have hsix : retrace_disasm_x64_prologue_len shortMov 5 8 = 6 := by decide
    rw [SplitsRight, hsix] at h
    have := hbounds 6 (h (by decide)).2.2
    omega
  · exact absurd (h (by decide)).2.1 (by decide)

end Retrace.Backends
