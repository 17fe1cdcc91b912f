import Retrace.Backends.Trampoline
import Retrace.Backends.Proofs.HookProofs

/-!
# Where a trampoline can be

Every candidate can be the first that is free, and a candidate that is `NULL` can get any address. So all
trampolines of a target are in reach exactly when no candidate is `NULL` and each of them is in reach, which is a
condition on the nearest and the farthest one of each side.
-/

namespace Retrace.Backends

variable {target prefix_len prologue_len buf base offset p : Nat}

theorem lands_iff : Lands target prefix_len prologue_len buf ↔
    fits_rel32 (trampoline_rel target prefix_len prologue_len buf) := by
  refine ⟨fun h => h.1, fun h => ⟨h, ?_⟩⟩
  rw [rel32_le_bytes h.1 h.2, trampoline_rel, Int.bmod_def]
  split_ifs <;> omega

theorem scan_some (h : scan candidate va offset = some p) :
    ∃ k base, offset + granule * k < RETRACE_NEAR_WINDOW ∧ candidate (offset + granule * k) = some base ∧
      va base = some p := by
  fun_induction scan candidate va offset with
  | case1 => cases h
  | case2 offset hlt base hbase q hq => exact ⟨0, base, by simpa using hlt, by simpa using hbase, hq.trans h⟩
  | case3 offset hlt base hbase hnone ih =>
    obtain ⟨k, base', hk, hcand, hva⟩ := ih h
    have hshift : offset + granule + granule * k = offset + granule * (k + 1) := by ring
    rw [hshift] at hk hcand
    exact ⟨k + 1, base', hk, hcand, hva⟩
  | case4 => cases h

/-- A candidate that is the only free one is found, if the loop does not break before it. -/
theorem scan_finds {k : Nat} (hk : offset + granule * k < RETRACE_NEAR_WINDOW)
    (hbase : candidate (offset + granule * k) = some base)
    (hbefore : ∀ o ≤ offset + granule * k, ∃ b, candidate o = some b)
    (hva : va = fun b => if b = base then some p else none) : scan candidate va offset = some p := by
  induction k generalizing offset with
  | zero =>
    rw [scan, if_pos (by simpa using hk), show candidate offset = some base by simpa using hbase]
    simp [hva]
  | succ k ih =>
    have hshift : offset + granule * (k + 1) = offset + granule + granule * k := by ring
    rw [hshift] at hk hbase hbefore
    obtain ⟨b, hb⟩ := hbefore offset (by omega)
    rw [scan, if_pos (by omega), hb]
    by_cases heq : b = base
    · simp [hva, heq]
    · simp only [hva, if_neg heq]
      rw [← hva]
      exact ih hk hbase hbefore

def Candidate (target base : Nat) : Prop :=
  ∃ k, granule + granule * k < RETRACE_NEAR_WINDOW ∧
    (above target (granule + granule * k) = some base ∨ below target (granule + granule * k) = some base)

/-- How far the next multiple of the granule is. -/
def pad (target : Nat) : Nat := (granule - target % granule) % granule

/-- How many candidates there are above and below: up to the window and to the end of the address space. -/
def countAbove (target : Nat) : Nat := min 32751 ((2 ^ 64 - 1 - target) / granule)

def countBelow (target : Nat) : Nat := min 32751 (target / granule)

theorem pad_spec (target : Nat) : pad target < granule ∧ (target + pad target) % granule = 0 := by
  simp only [pad, granule]
  omega

theorem candidate_iff (ht : target < 2 ^ 64) : Candidate target base ↔ ∃ k, 0 < k ∧
    (k ≤ countAbove target ∧ base = (target + pad target + granule * k) % 2 ^ 64 ∨
      k ≤ countBelow target ∧ base = target + pad target - granule * k) := by
  have hpad := pad_spec target
  have habove : ∀ k, granule + granule * k < RETRACE_NEAR_WINDOW →
      (above target (granule + granule * k) = some base ↔ k + 1 ≤ countAbove target ∧
        base = (target + pad target + granule * (k + 1)) % 2 ^ 64) := by
    intro k hk
    rw [above]
    split_ifs with hlt
    · refine iff_of_false (by simp) fun h => ?_
      simp only [countAbove, granule] at hlt h
      omega
    · simp only [align_up, countAbove, granule, RETRACE_NEAR_WINDOW, Option.some.injEq] at hk hpad hlt ⊢
      omega
  have hbelow : ∀ k, granule + granule * k < RETRACE_NEAR_WINDOW →
      (below target (granule + granule * k) = some base ↔ k + 1 ≤ countBelow target ∧
        base = target + pad target - granule * (k + 1)) := by
    intro k hk
    rw [below]
    split_ifs with hlt
    · refine iff_of_false (by simp) fun h => ?_
      simp only [countBelow, granule] at hlt h
      omega
    · simp only [align_up, countBelow, granule, RETRACE_NEAR_WINDOW, Option.some.injEq] at hk hpad hlt ⊢
      omega
  constructor
  · rintro ⟨k, hk, hcand⟩
    rw [habove k hk, hbelow k hk] at hcand
    exact ⟨k + 1, Nat.succ_pos k, hcand⟩
  · rintro ⟨k, hk, hcand⟩
    obtain ⟨k, rfl⟩ := Nat.exists_eq_succ_of_ne_zero hk.ne'
    have hwindow : granule + granule * k < RETRACE_NEAR_WINDOW := by
      simp only [countAbove, countBelow, granule, RETRACE_NEAR_WINDOW] at hcand ⊢
      omega
    exact ⟨k, hwindow, by rwa [habove k hwindow, hbelow k hwindow]⟩

theorem candidate_lt (ht : target < 2 ^ 64) (h : Candidate target base) : base < 2 ^ 64 := by
  obtain ⟨k, hk, hcand⟩ := (candidate_iff ht).mp h
  simp only [countBelow, pad, granule] at hcand
  omega

/-- What the tail jump has to make up for beside the distance of the candidate. -/
def slack (target prefix_len : Nat) : Int := pad target + ((prefix_len + 5 : Nat) : Int).bmod (2 ^ 64)

/-- The nearest and the farthest candidate of each side are in reach, and none is `NULL`. -/
structure Reachable (target prefix_len : Nat) : Prop where
  above : 0 < countAbove target → target + pad target + granule * countAbove target < 2 ^ 64 ∧
    -2 ^ 31 < granule + slack target prefix_len ∧ granule * countAbove target + slack target prefix_len ≤ 2 ^ 31
  below : 0 < countBelow target → granule * countBelow target < target + pad target ∧
    -2 ^ 31 ≤ granule - slack target prefix_len ∧ granule * countBelow target - slack target prefix_len < 2 ^ 31

theorem fits_bmod {d q : Int} (h : -2 ^ 32 ≤ d ∧ d < 2 ^ 32) :
    fits_rel32 ((d - q).bmod (2 ^ 64)) ↔ -2 ^ 31 ≤ d - q.bmod (2 ^ 64) ∧ d - q.bmod (2 ^ 64) < 2 ^ 31 := by
  rw [fits_rel32, Int.bmod_def, Int.bmod_def]
  omega

/-- For an address at the distance `d` from the rounded target the displacement is what the slack leaves of it. -/
theorem fits_iff {d : Int} (hd : (target : Int) + pad target - base = d)
    (h : -2 ^ 32 ≤ d - pad target ∧ d - pad target < 2 ^ 32) :
    fits_rel32 (trampoline_rel target prefix_len prologue_len base) ↔
      -2 ^ 31 ≤ d - slack target prefix_len ∧ d - slack target prefix_len < 2 ^ 31 := by
  have hrel : trampoline_rel target prefix_len prologue_len base =
      (d - pad target - (prefix_len + 5 : Nat) : Int).bmod (2 ^ 64) := by
    rw [trampoline_rel]
    congr 1
    omega
  have hslack : slack target prefix_len = pad target + ((prefix_len + 5 : Nat) : Int).bmod (2 ^ 64) := rfl
  rw [hrel, fits_bmod h, hslack, sub_add_eq_sub_sub]

theorem fits_above (ht : target < 2 ^ 64) (hpos : 0 < k) (hk : k ≤ countAbove target)
    (hbase : base = (target + pad target + granule * k) % 2 ^ 64) :
    (base ≠ 0 ∧ fits_rel32 (trampoline_rel target prefix_len prologue_len base)) ↔
      target + pad target + granule * k < 2 ^ 64 ∧ -2 ^ 31 < granule * k + slack target prefix_len ∧
        granule * k + slack target prefix_len ≤ 2 ^ 31 := by
  have hpad := pad_spec target
  simp only [countAbove, granule, Nat.cast_ofNat] at hk hpad hbase ⊢
  rcases Nat.lt_or_ge (target + pad target + 65536 * k) (2 ^ 64) with hlt | hge
  · rw [Nat.mod_eq_of_lt hlt] at hbase
    have hd : (target : Int) + pad target - base = -(65536 * k) := by omega
    rw [fits_iff hd (by omega)]
    omega
  · omega

theorem fits_below (hk : k ≤ countBelow target) (hbase : base = target + pad target - granule * k) :
    (base ≠ 0 ∧ fits_rel32 (trampoline_rel target prefix_len prologue_len base)) ↔
      granule * k < target + pad target ∧ -2 ^ 31 ≤ granule * k - slack target prefix_len ∧
        granule * k - slack target prefix_len < 2 ^ 31 := by
  have hpad := pad_spec target
  simp only [countBelow, granule, Nat.cast_ofNat] at hk hpad hbase ⊢
  have hd : (target : Int) + pad target - base = 65536 * k := by omega
  rw [fits_iff hd (by omega)]
  omega

theorem reachable_iff (ht : target < 2 ^ 64) : Reachable target prefix_len ↔ ∀ base, Candidate target base →
    base ≠ 0 ∧ fits_rel32 (trampoline_rel target prefix_len prologue_len base) := by
  constructor
  · rintro ⟨habove, hbelow⟩ base hbase
    obtain ⟨k, hk, ⟨hcount, hbase⟩ | ⟨hcount, hbase⟩⟩ := (candidate_iff ht).mp hbase
    · have := habove (by omega)
      rw [fits_above ht hk hcount hbase]
      simp only [granule] at this ⊢
      omega
    · have := hbelow (by omega)
      rw [fits_below hcount hbase]
      simp only [granule] at this ⊢
      omega
  · intro h
    refine ⟨fun hpos => ?_, fun hpos => ?_⟩
    · have hfits := fun k h1 hk =>
        (fits_above ht h1 hk rfl).mp (h _ ((candidate_iff ht).mpr ⟨k, h1, .inl ⟨hk, rfl⟩⟩))
      have hnear := hfits 1 Nat.one_pos hpos
      have hfar := hfits _ hpos le_rfl
      simp only [granule] at hnear hfar ⊢
      omega
    · have hfits := fun k h1 hk => (fits_below hk rfl).mp (h _ ((candidate_iff ht).mpr ⟨k, h1, .inr ⟨hk, rfl⟩⟩))
      have hnear := hfits 1 Nat.one_pos hpos
      have hfar := hfits _ hpos le_rfl
      simp only [granule] at hnear hfar ⊢
      omega

theorem reachable_inside (hlow : RETRACE_NEAR_WINDOW ≤ target) (hhigh : target + RETRACE_NEAR_WINDOW < 2 ^ 64) :
    Reachable target prefix_len ↔
      -(17 * granule) < slack target prefix_len ∧ slack target prefix_len ≤ 17 * granule := by
  have hpad := pad_spec target
  have habove : countAbove target = 32751 := by
    simp only [countAbove, granule, RETRACE_NEAR_WINDOW] at hhigh ⊢
    omega
  have hbelow : countBelow target = 32751 := by
    simp only [countBelow, granule, RETRACE_NEAR_WINDOW] at hlow ⊢
    omega
  simp only [granule, RETRACE_NEAR_WINDOW] at hlow hhigh hpad ⊢
  constructor
  · rintro ⟨h1, h2⟩
    simp only [habove, hbelow, granule] at h1 h2
    omega
  · intro h
    constructor
    · simp only [habove, granule]
      omega
    · simp only [hbelow, granule]
      omega

variable {VirtualAlloc : Nat → Nat → Option Nat}

theorem alloc_near_some (h : retrace_trampoline_alloc_near VirtualAlloc target size = some p) :
    size ≠ 0 ∧ ∃ base, Candidate target base ∧ VirtualAlloc base (align_up size 0x1000) = some p := by
  rw [retrace_trampoline_alloc_near] at h
  split_ifs at h with hnull
  refine ⟨fun hz => hnull (.inr hz), ?_⟩
  split at h
  · rename_i q hscan
    obtain ⟨k, base, hk, hcand, hva⟩ := scan_some hscan
    exact ⟨base, ⟨k, hk, .inl hcand⟩, by rw [hva, h]⟩
  · obtain ⟨k, base, hk, hcand, hva⟩ := scan_some h
    exact ⟨base, ⟨k, hk, .inr hcand⟩, hva⟩

theorem alloc_near_finds (ht : 0 < target) (ht' : target < 2 ^ 64) (hsize : size ≠ 0) (h : Candidate target base) :
    retrace_trampoline_alloc_near (fun b _ => if b = base then some p else none) target size = some p := by
  obtain ⟨k, hk, hcand⟩ := h
  have hwindow : RETRACE_NEAR_WINDOW < 2 ^ 31 := by decide
  generalize hva : (fun b (_ : Nat) => if b = base then some p else none) = va
  rw [retrace_trampoline_alloc_near, if_neg (by omega)]
  rcases hcand with hcand | hcand
  · have hbefore : ∀ o ≤ granule + granule * k, ∃ b, above target o = some b := by
      intro o ho
      simp only [above] at hcand ⊢
      split_ifs at hcand with hlt
      rw [if_neg (by omega)]
      exact ⟨_, rfl⟩
    rw [scan_finds hk hcand hbefore (by rw [← hva])]
  · have hbefore : ∀ o ≤ granule + granule * k, ∃ b, below target o = some b := by
      intro o ho
      rw [below] at hcand ⊢
      split_ifs at hcand with hlt
      rw [if_neg (by omega)]
      exact ⟨_, rfl⟩
    split
    · rename_i q hscan
      obtain ⟨-, b, -, -, hq⟩ := scan_some hscan
      simp only [← hva] at hq
      split_ifs at hq
      rw [hq]
    · exact scan_finds hk hcand hbefore (by rw [← hva])

/-- Two addresses that are 8 GiB apart are not both in reach. -/
theorem not_both_fit : ¬ (fits_rel32 (trampoline_rel target prefix_len prologue_len 1) ∧
    fits_rel32 (trampoline_rel target prefix_len prologue_len (1 + 2 ^ 33))) := by
  rintro ⟨⟨h1, h2⟩, h3, h4⟩
  simp only [trampoline_rel, Int.bmod_def] at h1 h2 h3 h4
  omega

/-- Whichever regions are free, a trampoline that is allocated lands. -/
def AlwaysLands (target prefix_len prologue_len : Nat) : Prop :=
  ∀ VirtualAlloc, IsVirtualAlloc VirtualAlloc → ∀ buf, retrace_trampoline_alloc_near VirtualAlloc target
    ((prefix_len + prologue_len + 5) % 2 ^ 64) = some buf → Lands target prefix_len prologue_len buf

/-- Every trampoline that is allocated is in reach of its target exactly when the nearest and the farthest
candidates are, and none is `NULL`. For a target with the whole window on both sides this is a bound of 17
granules on the prefix and the rounding. -/
theorem near_trampoline_iff (target prefix_len prologue_len : Nat) (ht : 0 < target) (ht' : target < 2 ^ 64) :
    (AlwaysLands target prefix_len prologue_len ↔
      (prefix_len + prologue_len + 5) % 2 ^ 64 = 0 ∨ Reachable target prefix_len) ∧
    (RETRACE_NEAR_WINDOW ≤ target → target + RETRACE_NEAR_WINDOW < 2 ^ 64 →
      (Reachable target prefix_len ↔
        -(17 * granule) < slack target prefix_len ∧ slack target prefix_len ≤ 17 * granule)) := by
  refine ⟨?_, fun hlow hhigh => reachable_inside hlow hhigh⟩
  simp only [AlwaysLands, lands_iff, @reachable_iff target prefix_len prologue_len ht']
  constructor
  · intro h
    by_cases hsize : (prefix_len + prologue_len + 5) % 2 ^ 64 = 0
    · exact .inl hsize
    refine .inr fun base hbase => ?_
    have hfree : ∀ p, 0 < p → p < 2 ^ 64 → (base ≠ 0 → p = base) →
        fits_rel32 (trampoline_rel target prefix_len prologue_len p) := by
      intro p hp hp' hexact
      refine h _ ⟨fun b size q hb hq => ?_, fun b size q hq => ?_⟩ p (alloc_near_finds ht ht' hsize hbase)
      · split_ifs at hq with heq
        rw [← Option.some.inj hq, heq, hexact (heq ▸ hb)]
      · split_ifs at hq
        exact Option.some.inj hq ▸ ⟨hp, hp'⟩
    have hnull : base ≠ 0 := fun hz => not_both_fit
      ⟨hfree 1 (by norm_num) (by norm_num) (absurd hz), hfree (1 + 2 ^ 33) (by norm_num) (by norm_num) (absurd hz)⟩
    exact ⟨hnull, hfree base (by omega) (candidate_lt ht' hbase) fun _ => rfl⟩
  · rintro h VirtualAlloc hva buf hbuf
    obtain ⟨hsize, base, hbase, hfound⟩ := alloc_near_some hbuf
    obtain ⟨hnull, hfits⟩ := h.resolve_left hsize base hbase
    rwa [hva.exact base _ buf hnull hfound]

/-- A target at a multiple of the granule, with the longest prefix that is in reach. -/
theorem near_trampoline_high : AlwaysLands (2 ^ 40) 1114107 14 := by
  obtain ⟨hiff, hinside⟩ := near_trampoline_iff (2 ^ 40) 1114107 14 (by norm_num) (by norm_num)
  refine hiff.mpr (.inr ((hinside (by decide) (by decide)).mpr ?_))
  decide

def onlyNull : Nat → Nat → Option Nat := fun base _ => if base = 0 then some (2 ^ 40) else none

/-- Less than two granules below the end of the address space the first candidate is rounded up to `NULL`. -/
theorem far_trampoline : IsVirtualAlloc onlyNull ∧
    retrace_trampoline_alloc_near onlyNull (2 ^ 64 - 0x1ffff) 19 = some (2 ^ 40) ∧
    ¬ Lands (2 ^ 64 - 0x1ffff) 0 14 (2 ^ 40) := by
  refine ⟨⟨fun base size p hb hp => ?_, fun base size p hp => ?_⟩, ?_, ?_⟩
  · rw [onlyNull, if_neg hb] at hp
    cases hp
  · rw [onlyNull] at hp
    split_ifs at hp
    have := Option.some.inj hp
    omega
  · rw [retrace_trampoline_alloc_near, if_neg (by norm_num), scan]
    rfl
  · rw [lands_iff]
    simp [fits_rel32, trampoline_rel, Int.bmod_def]

end Retrace.Backends
