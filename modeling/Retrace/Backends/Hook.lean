import Retrace.Backends.Disasm

/-!
# Inline hooks

`hook.c` on x64. The first instructions of a function are saved, copied into a trampoline that jumps back behind
them, and overwritten with a jump to the wrapper; to uninstall the hook the saved bytes are written back. The
record of a hook has room for 16 saved bytes, the decoder looks at up to 32.
-/

namespace Retrace.Backends

open CLib

abbrev AddressSpace := Nat → UInt8

def copy_from (mem : AddressSpace) (addr n : Nat) : Bytes := (List.range n).map fun i => mem (addr + i)

def copy_to (mem : AddressSpace) (addr : Nat) (bs : Bytes) : AddressSpace :=
  fun a => if addr ≤ a ∧ a < addr + bs.length then bs.getD (a - addr) 0 else mem a

def le_bytes : Nat → Int → Bytes
  | 0, _ => []
  | n + 1, v => UInt8.ofNat (v % 256).toNat :: le_bytes n (v / 256)

def SAVED_BYTES : Nat := 16

/-- `struct retrace_hook`: of the saved bytes those that are in the record. -/
structure Hook where
  target : Nat
  trampoline : Nat
  patch_size : Nat
  saved_bytes : Bytes

def within_rel32 (src dst : Nat) : Bool :=
  let delta : Int := dst - src - 5
  decide (-(2 ^ 30) ≤ delta ∧ delta ≤ 2 ^ 30)

def required_patch : Nat := 14

def build_trampoline_x64_ex (mem : AddressSpace) (target prologue_len : Nat) (thunk : Bytes)
    (buf : Nat) : Option Bytes :=
  let rel : Int := (target + prologue_len : Nat) - (buf + thunk.length + prologue_len + 5 : Nat)
  if 0x7fffffff < rel ∨ rel < -0x80000000 then none
  else some (thunk ++ copy_from mem target prologue_len ++ 0xE9 :: le_bytes 4 rel)

def jump_bytes (target wrapper : Nat) (use_rel32 : Bool) : Bytes :=
  if use_rel32 then 0xE9 :: le_bytes 4 (wrapper - (target + 5 : Nat))
  else 0x48 :: 0xB8 :: le_bytes 8 wrapper ++ [0xFF, 0xE0]

/-- `write_jump_x64`: the bytes that are written over the function. -/
def write_jump_x64 (target wrapper : Nat) (use_rel32 : Bool) (patch_size : Nat) : Option Bytes :=
  let jump := jump_bytes target wrapper use_rel32
  if 32 < patch_size then none
  else if patch_size < jump.length then none
  else some (jump ++ List.replicate (patch_size - jump.length) 0x90)

structure Installed where
  hook : Hook
  mem : AddressSpace
  trampoline : Bytes

def prologue_len (mem : AddressSpace) (target wrapper : Nat) : Nat :=
  retrace_disasm_x64_prologue_len (fun i => mem (target + i)) (if within_rel32 target wrapper then 5
    else required_patch) 32

/-- `retrace_hook_install_ex`: `buf` is the memory that the trampoline gets, `protect` whether the function can be
made writable. The saved bytes that have no room in the record are written behind it. -/
def retrace_hook_install_ex (mem : AddressSpace) (target wrapper : Nat) (thunk : Bytes) (buf : Option Nat)
    (protect : Bool) : Option Installed :=
  if 16 < thunk.length then none
  else
    let n := prologue_len mem target wrapper
    if n = 0 then none
    else
      buf.bind fun addr =>
        (build_trampoline_x64_ex mem target n thunk addr).bind fun trampoline =>
          (write_jump_x64 target wrapper (within_rel32 target wrapper) n).bind fun patch =>
            if protect then
              some {
                hook := ⟨target, addr, n, (copy_from mem target n).take SAVED_BYTES⟩
                mem := copy_to mem target patch
                trampoline := trampoline }
            else none

/-- `retrace_hook_uninstall`: `behind` is what is behind the record then. -/
def retrace_hook_uninstall (hook : Hook) (mem : AddressSpace) (behind : Bytes) : AddressSpace :=
  copy_to mem hook.target ((hook.saved_bytes ++ behind).take hook.patch_size)

def from_le : Bytes → Int
  | [] => 0
  | b :: bs => b.toNat + 256 * from_le bs

def rel32 (bs : Bytes) : Int := if from_le bs < 2 ^ 31 then from_le bs else from_le bs - 2 ^ 32

/-- The install saves, copies and overwrites the bytes of the prologue, and the uninstall restores them. -/
structure Undone (mem : AddressSpace) (target : Nat) (thunk : Bytes) (r : Installed) : Prop where
  fits : r.hook.patch_size ≤ SAVED_BYTES
  trampoline : ∃ disp, r.trampoline = thunk ++ copy_from mem target r.hook.patch_size ++ 0xE9 :: disp ∧
    disp.length = 4 ∧
    (r.hook.trampoline : Int) + r.trampoline.length + rel32 disp = target + r.hook.patch_size
  patched : ∃ patch : Bytes, patch.length = r.hook.patch_size ∧ r.mem = copy_to mem target patch
  restored : ∀ behind, retrace_hook_uninstall r.hook r.mem behind = mem

end Retrace.Backends
