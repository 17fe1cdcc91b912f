import Retrace.Backends.Hook
import Mathlib.Logic.Relation

/-!
# Memory near a function, and thunks

`trampoline_allocator.c`, and the tail jump of `build_trampoline_x64_ex` for addresses anywhere in 64
bits. A request that `VirtualAlloc` refuses leaves the regions as they are. Of `hook_targets.c`,
`follow_thunk` and `retrace_win_install_thunk` on x64: the trampoline of an export that only jumps on
goes to where the jumps lead.
-/

namespace Retrace.Backends

open CLib

def RETRACE_NEAR_WINDOW : Nat := 2 ^ 31 - 2 ^ 20

def granule : Nat := 0x10000

def align_up (x align : Nat) : Nat := (x + align - 1) % 2 ^ 64 / align * align

def above (target offset : Nat) : Option Nat :=
  let addr := (target + offset) % 2 ^ 64
  if addr < target then none else some (align_up addr granule)

def below (target offset : Nat) : Option Nat :=
  if target < offset then none else some (align_up (target - offset) granule)

def scan (candidate VirtualAlloc : Nat → Option Nat) (offset : Nat) : Option Nat :=
  if offset < RETRACE_NEAR_WINDOW then
    match candidate offset with
    | none => none
    | some base =>
      match VirtualAlloc base with
      | some p => some p
      | none => scan candidate VirtualAlloc (offset + granule)
  else none
termination_by RETRACE_NEAR_WINDOW - offset
decreasing_by
  rw [granule]
  omega

def retrace_trampoline_alloc_near (VirtualAlloc : Nat → Nat → Option Nat) (target size : Nat) : Option Nat :=
  let alloc_size := align_up size 0x1000
  if target = 0 ∨ size = 0 then none
  else
    match scan (above target) (fun base => VirtualAlloc base alloc_size) granule with
    | some p => some p
    | none => scan (below target) (fun base => VirtualAlloc base alloc_size) granule

/-- The request for an address gets exactly it or nothing, the one for `NULL` any address. -/
structure IsVirtualAlloc (VirtualAlloc : Nat → Nat → Option Nat) : Prop where
  exact : ∀ base size p, base ≠ 0 → VirtualAlloc base size = some p → p = base
  address : ∀ base size p, VirtualAlloc base size = some p → 0 < p ∧ p < 2 ^ 64

def trampoline_rel (target prefix_len prologue_len buf : Nat) : Int :=
  ((target + prologue_len : Nat) - (buf + prefix_len + prologue_len + 5 : Nat) : Int).bmod (2 ^ 64)

def fits_rel32 (rel : Int) : Prop := -0x80000000 ≤ rel ∧ rel ≤ 0x7fffffff

def Lands (target prefix_len prologue_len buf : Nat) : Prop :=
  let rel := trampoline_rel target prefix_len prologue_len buf
  fits_rel32 rel ∧
    ((buf + prefix_len + prologue_len + 5 : Nat) + rel32 (le_bytes 4 rel)) % 2 ^ 64 =
      (target + prologue_len : Nat) % 2 ^ 64

/-- The length of `mov r32, imm32` at `p`, zero for any other instruction. -/
def prefix_skip (mem : AddressSpace) (p : Nat) : Nat :=
  if mem p = 0x41 ∧ 0xB8 ≤ mem (p + 1) ∧ mem (p + 1) ≤ 0xBF then 6
  else if 0xB8 ≤ mem p ∧ mem p ≤ 0xBF then 5
  else 0

def near_dest (mem : AddressSpace) (p : Nat) : Nat :=
  ((p + 5 + rel32 (copy_from mem (p + 1) 4)) % 2 ^ 64).toNat

def indirect_dest (mem : AddressSpace) (p : Nat) : Nat :=
  let slot := ((p + 6 + rel32 (copy_from mem (p + 2) 4)) % 2 ^ 64).toNat
  (from_le (copy_from mem slot 8)).toNat

/-- Where the loop of `follow_thunk` goes on, `none` where it breaks. -/
def tail_jump (mem : AddressSpace) (p skip : Nat) : Option Nat :=
  if mem (p + skip) = 0xE9 then
    let dest := near_dest mem (p + skip)
    if dest = p ∨ p < dest ∧ dest < p + 32 ∨ mem dest = 0xCC then none else some dest
  else if mem (p + skip) = 0xFF ∧ mem (p + skip + 1) = 0x25 then
    let dest := indirect_dest mem (p + skip)
    if dest = 0 ∨ dest = p then none else some dest
  else none

/-- The hops after the first: one that sets up an argument is not followed. -/
def follow_hops (mem : AddressSpace) : Nat → Nat → Nat
  | 0, p => p
  | hops + 1, p =>
    if 0 < prefix_skip mem p then p
    else
      match tail_jump mem p 0 with
      | none => p
      | some dest => follow_hops mem hops dest

/-- The address that is found and the length of the prefix. -/
def follow_thunk (mem : AddressSpace) (addr : Nat) : Nat × Nat :=
  let skip := prefix_skip mem addr
  match tail_jump mem addr skip with
  | none => (addr, skip)
  | some dest => (follow_hops mem 3 dest, skip)

def thunk_patch (wrapper : Nat) : Bytes := 0x48 :: 0xB8 :: le_bytes 8 wrapper ++ [0xFF, 0xE0, 0x90, 0x90]

/-- `heap` is whether `HeapAlloc` gives the record. -/
def retrace_hook_bookmark (mem : AddressSpace) (target patch_size trampoline : Nat) (heap : Bool) : Option Hook :=
  if target = 0 ∨ patch_size = 0 ∨ SAVED_BYTES < patch_size then none
  else if heap then some ⟨target, trampoline, patch_size, copy_from mem target patch_size⟩
  else none

def retrace_win_install_thunk (mem : AddressSpace) (thunk_target worker wrapper prefix_len : Nat)
    (buf : Option Nat)
    (protect heap : Bool) : Option Installed :=
  buf.bind fun addr =>
    let rel := trampoline_rel worker prefix_len 0 addr
    if 0x7fffffff < rel ∨ rel < -0x80000000 then none
    else if protect then
      (retrace_hook_bookmark mem thunk_target (thunk_patch wrapper).length addr heap).map fun hook => {
        hook := hook
        mem := copy_to mem thunk_target (thunk_patch wrapper)
        trampoline := copy_from mem thunk_target prefix_len ++ 0xE9 :: le_bytes 4 rel }
    else none

/-- The branch of `retrace_win_install_hooks` for `RETRACE_HOOK_UNSAFE`. -/
def install_resolved (mem : AddressSpace) (target wrapper : Nat) (buf : Option Nat) (protect heap : Bool) :
    Option Installed :=
  let (resolved, prefix_len) := follow_thunk mem target
  if resolved = target then none
  else retrace_win_install_thunk mem target resolved wrapper prefix_len buf protect heap

inductive Jumps (mem : AddressSpace) : Nat → Nat → Prop
  | near {p : Nat} : mem p = 0xE9 → Jumps mem p (near_dest mem p)
  | indirect {p : Nat} : mem p = 0xFF → mem (p + 1) = 0x25 → Jumps mem p (indirect_dest mem p)

/-- The trampoline is the prefix of the thunk and a jump to where the jumps behind the prefix lead. -/
def Replays (mem : AddressSpace) (target : Nat) (r : Installed) : Prop :=
  ∃ n worker, n = prefix_skip mem target ∧ Relation.TransGen (Jumps mem) (target + n) worker ∧
    r.trampoline = copy_from mem target n ++ 0xE9 :: le_bytes 4 (trampoline_rel worker n 0 r.hook.trampoline) ∧
    Lands worker n 0 r.hook.trampoline

structure OnlyThunk (mem : AddressSpace) (target next : Nat) (r : Installed) : Prop where
  patched : ∃ patch : Bytes, patch.length = r.hook.patch_size ∧ r.mem = copy_to mem target patch
  within : ∀ a, target ≤ a → a < target + r.hook.patch_size → a < next
  trampoline : Replays mem target r

end Retrace.Backends
