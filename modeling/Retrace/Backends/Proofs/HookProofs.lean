import Retrace.Backends.Hook

/-!
# Installing and uninstalling a hook

The trampoline, the patch and the restored bytes have the length that the decoder gave. The record has room for
16 of them, so a hook is undone exactly when the prologue has no more.
-/

namespace Retrace.Backends

open CLib List Option

variable {mem : AddressSpace} {thunk : Bytes} {n target wrapper : Nat}

@[simp] theorem length_copy_from : (copy_from mem addr n).length = n := by
  simp [copy_from]

theorem copy_to_copy_from : copy_to (copy_to mem addr bs) addr (copy_from mem addr bs.length) = mem := by
  funext a
  rw [copy_to, length_copy_from]
  split_ifs with h
  · have hlt : a - addr < bs.length := by omega
    rw [getD_eq_getElem?_getD, copy_from, getElem?_map, getElem?_range hlt]
    simp only [map_some, getD_some]
    congr 1
    omega
  · rw [copy_to, if_neg h]

@[simp] theorem length_le_bytes : (le_bytes n v).length = n := by
  induction n generalizing v with
  | zero => rfl
  | succ n ih => rw [le_bytes, length_cons, ih]

theorem emod_256_mul (v : Int) (hm : 0 < m) : v % 256 + 256 * (v / 256 % m) = v % (256 * m) := by
  have hsplit : v = (v % 256 + 256 * (v / 256 % m)) + 256 * m * (v / 256 / m) := by
    have hlow := Int.emod_add_mul_ediv v 256
    have hhigh := Int.emod_add_mul_ediv (v / 256) m
    linear_combination -hlow - 256 * hhigh
  have hnonneg := Int.emod_nonneg (v / 256) hm.ne'
  have hlt := Int.emod_lt_of_pos (v / 256) hm
  have hmod := Int.add_mul_emod_self_left (v % 256 + 256 * (v / 256 % m)) (256 * m) (v / 256 / m)
  have hsmall : (v % 256 + 256 * (v / 256 % m)) % (256 * m) = v % 256 + 256 * (v / 256 % m) :=
    Int.emod_eq_of_lt (by omega) (by omega)
  rw [← hsplit, hsmall] at hmod
  exact hmod.symm

theorem from_le_le_bytes : from_le (le_bytes n v) = v % 256 ^ n := by
  induction n generalizing v with
  | zero => simp [le_bytes, from_le]
  | succ n ih =>
    have hlow : ((UInt8.ofNat (v % 256).toNat).toNat : Int) = v % 256 := by
      rw [UInt8.toNat_ofNat']
      omega
    rw [le_bytes, from_le, ih, hlow, pow_succ, mul_comm (256 ^ n : Int) 256, emod_256_mul v (by positivity)]

theorem rel32_le_bytes (hlo : -0x80000000 ≤ v) (hhi : v ≤ 0x7fffffff) : rel32 (le_bytes 4 v) = v := by
  rw [rel32, from_le_le_bytes]
  norm_num
  split_ifs with h <;> omega

theorem build_trampoline_cases (h : build_trampoline_x64_ex mem target n thunk buf = some trampoline) :
    ∃ disp, trampoline = thunk ++ copy_from mem target n ++ 0xE9 :: disp ∧ disp.length = 4 ∧
      (buf : Int) + trampoline.length + rel32 disp = target + n := by
  rw [build_trampoline_x64_ex] at h
  split_ifs at h with hrange
  cases h
  refine ⟨_, rfl, length_le_bytes, ?_⟩
  rw [not_or, not_lt, not_lt] at hrange
  rw [rel32_le_bytes hrange.2 hrange.1]
  simp only [length_append, length_copy_from, length_cons, length_le_bytes]
  push_cast
  ring

theorem length_write_jump (h : write_jump_x64 target wrapper use_rel32 n = some patch) : patch.length = n := by
  rw [write_jump_x64] at h
  split_ifs at h with hmax hjump
  cases h
  rw [length_append, length_replicate]
  omega

theorem install_cases (h : retrace_hook_install_ex mem target wrapper thunk buf protect = some r) :
    ∃ addr patch, r.hook = ⟨target, addr, prologue_len mem target wrapper,
        (copy_from mem target (prologue_len mem target wrapper)).take SAVED_BYTES⟩ ∧
      build_trampoline_x64_ex mem target (prologue_len mem target wrapper) thunk addr = some r.trampoline ∧
      patch.length = prologue_len mem target wrapper ∧ r.mem = copy_to mem target patch := by
  have hthunk : ¬ 16 < thunk.length := fun hlt => by simp [retrace_hook_install_ex, hlt] at h
  have hzero : prologue_len mem target wrapper ≠ 0 := fun hz => by simp [retrace_hook_install_ex, hz] at h
  rw [retrace_hook_install_ex] at h
  dsimp only at h
  rw [if_neg hthunk, if_neg hzero] at h
  obtain ⟨addr, -, h⟩ := bind_eq_some_iff.mp h
  obtain ⟨trampoline, htramp, h⟩ := bind_eq_some_iff.mp h
  obtain ⟨patch, hpatch, h⟩ := bind_eq_some_iff.mp h
  split_ifs at h
  cases h
  exact ⟨addr, patch, rfl, htramp, length_write_jump hpatch, rfl⟩

/-- An accepted install is undone by the uninstall exactly when the prologue has at most 16 bytes. -/
theorem hook_undone_iff (mem : AddressSpace) (target wrapper : Nat) (thunk : Bytes) (buf : Option Nat)
    (protect : Bool) (r : Installed)
    (h : retrace_hook_install_ex mem target wrapper thunk buf protect = some r) :
    Undone mem target thunk r ↔ prologue_len mem target wrapper ≤ SAVED_BYTES := by
  obtain ⟨addr, patch, hhook, htramp, hlen, hmem⟩ := install_cases h
  constructor
  · intro hundone
    simpa [hhook] using hundone.fits
  · intro hfits
    refine ⟨by rw [hhook]; exact hfits, ?_, ⟨patch, by rw [hhook]; exact hlen, hmem⟩, ?_⟩
    · rw [hhook]
      exact build_trampoline_cases htramp
    · intro behind
      -- All saved bytes are in the record.
      have hsaved : (copy_from mem target (prologue_len mem target wrapper)).take SAVED_BYTES =
          copy_from mem target patch.length := by
        rw [take_of_length_le (by rw [length_copy_from]; exact hfits), hlen]
      rw [retrace_hook_uninstall, hhook]
      dsimp only
      rw [hsaved, ← hlen, take_left' length_copy_from, hmem]
      exact copy_to_copy_from

def nops : AddressSpace := fun _ => 0x90

/-- A hook on `nop` instructions. -/
theorem hook_undone_nops :
    ∃ r, retrace_hook_install_ex nops 4096 8192 [] (some 65536) true = some r ∧ Undone nops 4096 [] r := by
  obtain ⟨r, hr⟩ : ∃ r, retrace_hook_install_ex nops 4096 8192 [] (some 65536) true = some r :=
    isSome_iff_exists.mp (by decide_cbv)
  refine ⟨r, hr, (hook_undone_iff nops 4096 8192 [] (some 65536) true r hr).mpr ?_⟩
  decide_cbv

def longPrologue : AddressSpace := fun a =>
  if a < 4096 then 0 else if a < 4109 then 0x50 else if a = 4109 then 0x48 else if a = 4110 then 0xB8 else 0

/-- The install accepts a prologue of 23 bytes. -/
theorem hook_overflows :
    ∃ r, retrace_hook_install_ex longPrologue 4096 (2 ^ 40) [] (some 65536) true = some r ∧
      r.hook.patch_size = 23 ∧ SAVED_BYTES < r.hook.patch_size := by
  obtain ⟨r, hr⟩ : ∃ r, retrace_hook_install_ex longPrologue 4096 (2 ^ 40) [] (some 65536) true = some r :=
    isSome_iff_exists.mp (by decide_cbv)
  obtain ⟨addr, patch, hhook, -⟩ := install_cases hr
  have hlen : prologue_len longPrologue 4096 (2 ^ 40) = 23 := by decide_cbv
  refine ⟨r, hr, by rw [hhook]; exact hlen, ?_⟩
  rw [hhook]
  show SAVED_BYTES < prologue_len longPrologue 4096 (2 ^ 40)
  rw [hlen]
  decide

end Retrace.Backends
