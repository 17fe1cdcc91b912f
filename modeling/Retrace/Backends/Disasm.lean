import Retrace.CLib.CString

/-!
# The x64 prologue decoder

`disasm_x64.c`: the length of the instructions at the beginning of a function, as far as they can be moved to
another address. The decoder knows the opcodes of prologues and refuses everything else; relative branches and
addresses relative to the instruction pointer are refused too. Beside it stands what the instruction set says
of the same opcodes.
-/

namespace Retrace.Backends

open CLib

/-- `modrm_extra`: whether an SIB byte follows, and the size of the displacement; none for an address relative to
the instruction pointer. -/
def modrm_extra : Bytes → Option (Bool × Nat)
  | [] => none
  | modrm :: _ =>
    let mod := modrm >>> 6
    let rm := modrm &&& 7
    if mod = 0 then if rm = 5 then none else some (rm == 4, 0)
    else if mod = 1 then some (rm == 4, 1)
    else if mod = 2 then some (rm == 4, 4)
    else some (false, 0)

def modrm_size (tail : Bytes) : Option Nat := (modrm_extra tail).map fun x => 1 + x.1.toNat + x.2

def modrm_imm (tail : Bytes) (imm : Nat) : Option Nat :=
  (modrm_size tail).bind fun n => if tail.length < n + imm then none else some (n + imm)

def imm_only (tail : Bytes) (imm : Nat) : Option Nat := if tail.length < imm then none else some imm

def is_legacy (op : UInt8) : Bool :=
  op == 0xF0 || op == 0xF2 || op == 0xF3 || op == 0x2E || op == 0x36 || op == 0x3E || op == 0x26 || op == 0x64 ||
    op == 0x65 || op == 0x66

def is_rex (op : UInt8) : Bool := 0x40 ≤ op && op ≤ 0x4F

inductive Opcode where
  /-- `nop`, `ret`, `int3`, `leave`, and `push` and `pop` of a register. -/
  | plain
  | relative
  | escape
  /-- `mov` of an immediate operand of the full size into a register. -/
  | mov_reg_imm
  /-- `mov` of an immediate operand into a register or memory, `C7`. -/
  | mov_imm
  /-- Arithmetic with an immediate operand of one byte, `83`. -/
  | arith_imm8
  /-- Arithmetic with an immediate operand, `81`. -/
  | arith_imm
  /-- `mov` between a register and a register or memory. -/
  | mov
  | lea
  /-- `mov` of a byte into a register. -/
  | mov_reg_imm8
  | push_imm8
  | push_imm
  | other
  deriving DecidableEq, Repr

def opcode (op : UInt8) : Opcode :=
  if op = 0x90 ∨ op = 0xC3 ∨ op = 0xCC ∨ op = 0xC9 then .plain
  else if 0x50 ≤ op ∧ op ≤ 0x5F then .plain
  else if op = 0xE8 ∨ op = 0xE9 then .relative
  else if op = 0xEB ∨ (0xE0 ≤ op ∧ op ≤ 0xE3) then .relative
  else if 0x70 ≤ op ∧ op ≤ 0x7F then .relative
  else if op = 0x0F then .escape
  else if op = 0xFF then .other
  else if op = 0xC7 then .mov_imm
  else if op = 0x83 then .arith_imm8
  else if op = 0x81 then .arith_imm
  else if op = 0x88 ∨ op = 0x89 ∨ op = 0x8A ∨ op = 0x8B then .mov
  else if op = 0x8D then .lea
  else if 0xB0 ≤ op ∧ op ≤ 0xB7 then .mov_reg_imm8
  else if 0xB8 ≤ op ∧ op ≤ 0xBF then .mov_reg_imm
  else if op = 0x6A then .push_imm8
  else if op = 0x68 then .push_imm
  else .other

/-- The arm for the two-byte opcodes. For `0F 1F` the byte `1F` itself is taken for ModR/M. -/
def two_byte (tail : Bytes) : Option Nat :=
  match tail with
  | [] => none
  | second :: rest =>
    if second = 0x1E then if rest.head? = some 0xFA then some 2 else none
    else if second = 0x1F then modrm_size tail
    else none

/-- The arms of `decode_one` behind the opcode: how many bytes follow it. -/
def operand_size (has_rex_w : Bool) (tail : Bytes) : Opcode → Option Nat
  | .plain => some 0
  | .relative => none
  | .escape => two_byte tail
  | .mov_reg_imm => imm_only tail (if has_rex_w then 8 else 4)
  | .mov_imm => modrm_imm tail 4
  | .arith_imm8 => modrm_imm tail 1
  | .arith_imm => modrm_imm tail 4
  | .mov => modrm_size tail
  | .lea => modrm_size tail
  | .mov_reg_imm8 => imm_only tail 1
  | .push_imm8 => imm_only tail 1
  | .push_imm => imm_only tail 4
  | .other => none

/-- An instruction taken apart: the prefixes, whether REX.W is set, the opcode and what follows it. -/
structure Head where
  prefixes : Bytes
  has_rex : Bool
  has_rex_w : Bool
  op : UInt8
  tail : Bytes

def read_head (code : Bytes) : Option Head :=
  let prefixes := code.takeWhile is_legacy
  match code.dropWhile is_legacy with
  | [] => none
  | r :: rest =>
    if is_rex r then
      match rest with
      | [] => none
      | op :: tail => some ⟨prefixes, true, r &&& 8 != 0, op, tail⟩
    else some ⟨prefixes, false, false, r, rest⟩

def Head.size (h : Head) : Nat := h.prefixes.length + h.has_rex.toNat + 1

/-- `decode_one` on the bytes that are available: 0 is a refusal. -/
def decode_one (code : Bytes) : Nat :=
  match read_head code with
  | none => 0
  | some h => (operand_size h.has_rex_w h.tail (opcode h.op)).elim 0 (h.size + ·)

def window (code : Nat → UInt8) (total max_scan : Nat) : Bytes :=
  (List.range (max_scan - total)).map fun i => code (total + i)

/-- The loop of `retrace_disasm_x64_prologue_len`; every instruction has at least one byte. -/
def prologue_loop (code : Nat → UInt8) (min_bytes max_scan : Nat) : Nat → Nat → Nat
  | 0, _ => 0
  | fuel + 1, total =>
    if total < min_bytes then
      if max_scan ≤ total then 0
      else
        let one := decode_one (window code total max_scan)
        if one = 0 then 0 else prologue_loop code min_bytes max_scan fuel (total + one)
    else total

def retrace_disasm_x64_prologue_len (code : Nat → UInt8) (min_bytes max_scan : Nat) : Nat :=
  prologue_loop code min_bytes max_scan (min_bytes + 1) 0

/-- The bytes from ModR/M to the displacement of an operand: an SIB byte whose base is 101 has a displacement of
four bytes also when the mode has none. There is none for an address relative to the instruction pointer. -/
def operand_bytes : Bytes → Option Nat
  | [] => none
  | modrm :: rest =>
    let mod := modrm >>> 6
    let rm := modrm &&& 7
    if mod = 3 then some 1
    else
      let disp := if mod = 1 then 1 else if mod = 2 then 4 else 0
      if rm = 4 then
        rest.head?.map fun sib => if mod = 0 ∧ sib &&& 7 = 5 then 6 else 2 + disp
      else if mod = 0 ∧ rm = 5 then none
      else some (1 + disp)

def opcode_extension (tail : Bytes) : Option UInt8 := tail.head?.map fun (modrm : UInt8) => (modrm >>> 3) &&& 7

def is_register (tail : Bytes) : Bool := tail.head?.any fun (modrm : UInt8) => modrm >>> 6 == 3

/-- The size of an immediate operand that follows the operand size: two bytes with the prefix `66`. -/
def imm_bytes (opsize16 rex_w : Bool) : Nat := if opsize16 ∧ rex_w = false then 2 else 4

/-- How many bytes follow the opcode, for the opcodes that the decoder knows: `C7` is an instruction with the
extension 0 only, and `lea` has no register operand. Relative branches are not among them. -/
def insn_operands (opsize16 rex_w : Bool) (tail : Bytes) : Opcode → Option Nat
  | .plain => some 0
  | .relative => none
  | .escape =>
    if tail.head? = some 0x1E then if tail[1]? = some 0xFA then some 2 else none
    else if tail.head? = some 0x1F then (operand_bytes tail.tail).map (1 + ·)
    else none
  | .mov_reg_imm => some (if rex_w then 8 else imm_bytes opsize16 rex_w)
  | .mov_imm =>
    if opcode_extension tail = some 0 then (operand_bytes tail).map (· + imm_bytes opsize16 rex_w) else none
  | .arith_imm8 => (operand_bytes tail).map (· + 1)
  | .arith_imm => (operand_bytes tail).map (· + imm_bytes opsize16 rex_w)
  | .mov => operand_bytes tail
  | .lea => if is_register tail then none else operand_bytes tail
  | .mov_reg_imm8 => some 1
  | .push_imm8 => some 1
  | .push_imm => some (imm_bytes opsize16 rex_w)
  | .other => none

/-- No instruction has more than 15 bytes. -/
def INSN_MAX : Nat := 15

def insn_length (code : Bytes) : Option Nat :=
  (read_head code).bind fun h =>
    (insn_operands (h.prefixes.contains 0x66) h.has_rex_w h.tail (opcode h.op)).bind fun n =>
      if n ≤ h.tail.length ∧ h.size + n ≤ INSN_MAX then some (h.size + n) else none

/-- The first `n` bytes of the code are whole instructions that lie in front of `max_scan`. -/
inductive Splits (code : Nat → UInt8) (max_scan : Nat) : Nat → Prop
  | nil : Splits code max_scan 0
  | insn {total n : Nat} (h : Splits code max_scan total)
      (hinsn : insn_length (window code total max_scan) = some n) : Splits code max_scan (total + n)

def sib_base101 : Bytes → Bool
  | modrm :: sib :: _ => modrm >>> 6 == 0 && modrm &&& 7 == 4 && sib &&& 7 == 5
  | _ => false

def address_count (modrm : UInt8) : Nat :=
  1 + (if modrm >>> 6 ≠ 3 ∧ modrm &&& 7 = 4 then 1 else 0) +
    (if modrm >>> 6 = 1 then 1 else if modrm >>> 6 = 2 then 4 else 0)

def rip_relative (tail : Bytes) : Bool :=
  tail.head?.all fun (modrm : UInt8) => modrm >>> 6 == 0 && modrm &&& 7 == 5

def operand_fits (tail : Bytes) (imm : Nat) : Bool :=
  !rip_relative tail && tail.head?.any fun modrm => address_count modrm + imm ≤ tail.length

def misread (opsize16 rex_w : Bool) (tail : Bytes) : Opcode → Bool
  | .escape => tail.head? == some 0x1F
  | .mov_reg_imm => opsize16 && !rex_w && decide (4 ≤ tail.length)
  | .push_imm => opsize16 && !rex_w && decide (4 ≤ tail.length)
  | .mov_imm => operand_fits tail 4 &&
      ((opsize16 && !rex_w) || sib_base101 tail || opcode_extension tail != some 0)
  | .arith_imm => operand_fits tail 4 && ((opsize16 && !rex_w) || sib_base101 tail)
  | .arith_imm8 => operand_fits tail 1 && sib_base101 tail
  | .mov => !rip_relative tail && (!operand_fits tail 0 || sib_base101 tail)
  | .lea => !rip_relative tail && (!operand_fits tail 0 || sib_base101 tail || is_register tail)
  | _ => false

/-- The operands of `h` are not refused, and with them and its prefixes it is too long. -/
def Head.too_long (h : Head) : Bool :=
  (operand_size h.has_rex_w h.tail (opcode h.op)).any (INSN_MAX < h.size + ·)

def Misread (code : Bytes) : Prop :=
  ∃ h ∈ read_head code, (misread (h.prefixes.contains 0x66) h.has_rex_w h.tail (opcode h.op) || h.too_long) = true

end Retrace.Backends
