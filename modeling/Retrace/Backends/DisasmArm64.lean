import Retrace.CLib.CString

/-!
# The prologue check on arm64

`disasm_arm64.c`: the first instructions of a function are copied into a trampoline when each of them is
on a list of masks. Beside it stand the classes of the A64 encoding whose meaning depends on where the
instruction is.
-/

namespace Retrace.Backends

open CLib

def insn_is_relocatable (insn : BitVec 32) : Bool :=
  if insn = 0xD503233F ∨ insn = 0xD503237F then true
  else if insn = 0xD503201F then true
  -- ldp and stp
  else if insn &&& 0x36000000 = 0x20000000 then true
  -- add and sub of an immediate
  else if insn &&& 0x1F000000 = 0x11000000 ∨ insn &&& 0x1F000000 = 0x51000000 then true
  -- movn, movz and movk
  else if insn &&& 0x7F800000 = 0x12800000 ∨ insn &&& 0x7F800000 = 0x52800000 ∨
    insn &&& 0x7F800000 = 0x72800000 then true
  -- orr of an immediate, and of a register
  else if insn &&& 0x1F800000 = 0x32000000 then true
  else if insn &&& 0x7FE0FC00 = 0x2A0003E0 ∨ insn &&& 0x7FE0FC00 = 0xAA0003E0 then true
  -- loads and stores by a register
  else if insn &&& 0x3A000000 = 0x38000000 then true
  else false

def word_at (code : Nat → UInt8) (off : Nat) : BitVec 32 :=
  (code (off + 3)).toBitVec ++ (code (off + 2)).toBitVec ++ (code (off + 1)).toBitVec ++ (code off).toBitVec

def retrace_disasm_arm64_prologue_len (code : Option (Nat → UInt8)) (min_bytes max_scan : UInt64) : UInt64 :=
  match code with
  | none => 0
  | some code =>
    if min_bytes = 0 ∨ max_scan < min_bytes then 0
    else
      -- The mask takes the two low bits off.
      let rounded := (min_bytes + 3) / 4 * 4
      if max_scan < rounded then 0
      else if (List.range (rounded.toNat / 4)).all fun k => insn_is_relocatable (word_at code (4 * k)) then rounded
      else 0

abbrev IsAdr (insn : BitVec 32) : Prop := insn.extractLsb' 24 5 = 0b10000#5

abbrev IsBranchOrSystem (insn : BitVec 32) : Prop := insn.extractLsb' 26 3 = 0b101#3

abbrev IsLiteral (insn : BitVec 32) : Prop := insn.extractLsb' 27 3 = 0b011#3 ∧ insn.extractLsb' 24 2 = 0b00#2

structure PositionIndependent (insn : BitVec 32) : Prop where
  adr : ¬ IsAdr insn
  literal : ¬ IsLiteral insn
  system : IsBranchOrSystem insn → insn ∈ [0xD503201F#32, 0xD503233F#32, 0xD503237F#32]

end Retrace.Backends
