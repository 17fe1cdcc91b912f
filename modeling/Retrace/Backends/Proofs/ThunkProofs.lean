import Retrace.Backends.Proofs.TrampolineProofs

/-!
# What the hook of a thunk overwrites

The patch of a thunk has 14 bytes, whatever the length of the thunk.
-/

namespace Retrace.Backends

open CLib Option

variable {mem : AddressSpace} {target wrapper p skip dest : Nat} {buf : Option Nat} {protect heap : Bool}
  {r : Installed}

theorem tail_jump_jumps (h : tail_jump mem p skip = some dest) : Jumps mem (p + skip) dest := by
  simp only [tail_jump] at h
  split_ifs at h with hnear _ hindirect _
  · rw [← some.inj h]
    exact .near hnear
  · rw [← some.inj h]
    exact .indirect hindirect.1 hindirect.2

theorem follow_hops_leads (hops p : Nat) : Relation.ReflTransGen (Jumps mem) p (follow_hops mem hops p) := by
  fun_induction follow_hops mem hops p with
  | case1 => exact .refl
  | case2 => exact .refl
  | case3 => exact .refl
  | case4 hops p _ dest hdest ih => exact .head (tail_jump_jumps hdest) ih

/-- What is taken for a thunk is one. -/
theorem follow_thunk_leads (h : (follow_thunk mem target).1 ≠ target) :
    (follow_thunk mem target).2 = prefix_skip mem target ∧
      Relation.TransGen (Jumps mem) (target + prefix_skip mem target) (follow_thunk mem target).1 := by
  cases hjump : tail_jump mem target (prefix_skip mem target) with
  | none => simp [follow_thunk, hjump] at h
  | some dest =>
    simp only [follow_thunk, hjump]
    exact ⟨trivial, .head' (tail_jump_jumps hjump) (follow_hops_leads 3 dest)⟩

theorem install_resolved_cases (h : install_resolved mem target wrapper buf protect heap = some r) :
    r.hook.patch_size = (thunk_patch wrapper).length ∧ r.mem = copy_to mem target (thunk_patch wrapper) ∧
      Replays mem target r := by
  simp only [install_resolved] at h
  split_ifs at h with hresolved
  obtain ⟨hskip, hleads⟩ := follow_thunk_leads hresolved
  obtain ⟨addr, -, h⟩ := bind_eq_some_iff.mp h
  dsimp only at h
  split_ifs at h with hrange
  obtain ⟨hook, hhook, hr⟩ := map_eq_some_iff.mp h
  rw [not_or, not_lt, not_lt] at hrange
  rw [retrace_hook_bookmark] at hhook
  split_ifs at hhook
  cases hhook
  cases hr
  exact ⟨rfl, rfl, _, _, hskip, hskip ▸ hleads, rfl, lands_iff.mpr ⟨hrange.2, hrange.1⟩⟩

/-- The hook of a thunk touches only the thunk and the padding up to the next function exactly when these have
room for the patch. -/
theorem only_thunk_iff (mem : AddressSpace) (target wrapper next : Nat) (buf : Option Nat) (protect heap : Bool)
    (r : Installed) (h : install_resolved mem target wrapper buf protect heap = some r) :
    OnlyThunk mem target next r ↔ target + 14 ≤ next := by
  obtain ⟨hsize, hmem, htramp⟩ := install_resolved_cases h
  have hlen : (thunk_patch wrapper).length = 14 := by simp [thunk_patch]
  constructor
  · intro honly
    have hlast := honly.within (target + 13) (by omega) (by omega)
    omega
  · intro hnext
    exact ⟨⟨_, hsize.symm, hmem⟩, fun a _ ha => by omega, htramp⟩

/-- `jmp` to the address 8197 at 4096, and `push rbp` everywhere else. -/
def thunkAt : AddressSpace := fun a =>
  if a = 4096 then 0xE9 else if a = 4098 then 0x10 else if 4096 < a ∧ a < 4101 then 0 else 0x55

theorem thunkAt_installs : ∃ r, install_resolved thunkAt 4096 (2 ^ 40) (some 131072) true true = some r :=
  isSome_iff_exists.mp (by decide_cbv)

theorem only_thunk_padded :
    ∃ r, install_resolved thunkAt 4096 (2 ^ 40) (some 131072) true true = some r ∧
      OnlyThunk thunkAt 4096 4112 r := by
  obtain ⟨r, hr⟩ := thunkAt_installs
  exact ⟨r, hr, (only_thunk_iff thunkAt 4096 (2 ^ 40) 4112 (some 131072) true true r hr).mpr (by norm_num)⟩

/-- The first byte of a function right behind the thunk is overwritten. -/
theorem packed_neighbour_overwritten :
    ∃ r, install_resolved thunkAt 4096 (2 ^ 40) (some 131072) true true = some r ∧ r.mem 4101 ≠ thunkAt 4101 ∧
      ¬ OnlyThunk thunkAt 4096 4101 r := by
  obtain ⟨r, hr⟩ := thunkAt_installs
  obtain ⟨hsize, hmem, -⟩ := install_resolved_cases hr
  refine ⟨r, hr, by rw [hmem]; decide_cbv, fun honly => ?_⟩
  have hlast := honly.within 4109 (by norm_num) (by rw [hsize]; decide_cbv)
  omega

end Retrace.Backends
