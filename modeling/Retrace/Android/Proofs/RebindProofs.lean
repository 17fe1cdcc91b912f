import Retrace.Android.Rebind

/-!
# When a rebound slot keeps its real implementation

The table of real implementations holds the first 512 entries that were recorded, repeated names included.
-/

namespace Retrace.Android

open CLib List

def realOf (t : Target) : Bytes × UInt64 := (t.name.take (REAL_NAME_SIZE - 1), t.real)

variable {env : Env} {slots : UInt64 → UInt64} {ts : List Target}

theorem target_real (h : env.target rela = some t) :
    env.get_real t.name = some t.real ∧ t.name.take (REAL_NAME_SIZE - 1) = t.name := by
  simp only [Env.target] at h
  split_ifs at h
  split at h
  · next ours real hours hreal =>
    split_ifs at h with hrange
    obtain rfl := Option.some.inj h
    simp only [not_or, UInt64.not_lt, UInt64.not_le] at hrange
    refine ⟨hreal, take_of_length_le ?_⟩
    exact (env.short _ ours hours hrange.1 hrange.2.1).trans (by decide)
  · cases h

theorem held_concat : held slots (ts ++ [t]) slot = if t.slot = slot then t.ours else held slots ts slot := by
  unfold held
  rw [filter_append]
  split_ifs with h <;> simp [h]

/-- What holds after the entries with the targets `ts`. -/
structure Recorded (env : Env) (slots : UInt64 → UInt64) (ts : List Target) (st : State) : Prop where
  reals : st.reals = (ts.take REALS_MAX).map realOf
  known : ∀ t ∈ ts, env.get_real t.name = some t.real ∧ t.name.take (REAL_NAME_SIZE - 1) = t.name
  held : ∀ slot, env.mprotect slot = true → st.slots slot = held slots ts slot
  rebound : ∀ x, x ∈ st.rebound ↔ ∃ pre t, pre ++ [t] <+: ts ∧ env.Overwrites slots pre t ∧ x = (t.slot, t.name)

theorem take_concat_reals :
    reals_add ((ts.take REALS_MAX).map realOf) t.name t.real = ((ts ++ [t]).take REALS_MAX).map realOf := by
  unfold reals_add
  rw [length_map, length_take, take_append]
  split_ifs with hfull
  · rw [show REALS_MAX - ts.length = 0 by omega, take_zero, append_nil]
  · rw [show REALS_MAX - ts.length = (REALS_MAX - ts.length - 1) + 1 by omega]
    simp [realOf]

/-- One entry of a table: it is recorded, and its slot is overwritten if need be. -/
theorem Recorded.entry (h : Recorded env slots ts st) (rela : Rela) :
    Recorded env slots (ts ++ (env.target rela).toList) (rebind_entry env st rela) := by
  cases htarget : env.target rela with
  | none => simpa [rebind_entry, htarget] using h
  | some t =>
    have hreals : reals_add st.reals t.name t.real = ((ts ++ [t]).take REALS_MAX).map realOf := by
      rw [h.reals, take_concat_reals]
    have hknown := forall_mem_append.mpr ⟨h.known, forall_mem_singleton.mpr (target_real htarget)⟩
    have hsplit : ∀ x, (∃ pre t', pre ++ [t'] <+: ts ++ [t] ∧ env.Overwrites slots pre t' ∧
        x = (t'.slot, t'.name)) ↔
        x ∈ st.rebound ∨ env.Overwrites slots ts t ∧ x = (t.slot, t.name) := by
      intro x
      simp only [prefix_concat_iff, h.rebound x, append_singleton_inj, or_and_right, exists_or]
      rw [or_comm]
      simp
    simp only [rebind_entry, htarget, Option.toList_some]
    split_ifs with hsame
    · have hnot : ¬env.Overwrites slots ts t := by
        rintro ⟨hpage, hne⟩
        rw [← h.held _ hpage] at hne
        simp [hne, hpage] at hsame
      refine ⟨hreals, hknown, fun slot hpage => ?_, fun x => ?_⟩
      · rw [held_concat]
        split_ifs with hslot
        · subst hslot
          simpa [hpage] using hsame
        · exact h.held slot hpage
      · rw [hsplit, or_iff_left fun hx => hnot hx.1]
    · simp only [not_or, Bool.not_eq_false] at hsame
      refine ⟨hreals, hknown, fun slot hpage => ?_, fun x => ?_⟩
      · show Function.update st.slots t.slot t.ours slot = _
        rw [held_concat, Function.update_apply, ← h.held slot hpage]
        simp only [eq_comm]
      · rw [hsplit, mem_append, mem_singleton]
        refine or_congr_right (and_iff_right ⟨hsame.2, ?_⟩).symm
        rw [← h.held _ hsame.2]
        exact hsame.1

/-- The entries of one more table go behind the targets that were recorded. -/
theorem Recorded.run (h : Recorded env slots ts st) (entries : List Rela) :
    Recorded env slots (ts ++ entries.filterMap env.target) (entries.foldl (rebind_entry env) st) := by
  induction entries generalizing ts st with
  | nil => rwa [filterMap_nil, append_nil]
  | cons rela entries ih =>
    have := ih (h.entry rela)
    rw [append_assoc] at this
    cases htarget : env.target rela <;> simpa [filterMap_cons, htarget] using this

theorem recorded_rebind (env : Env) (slots : UInt64 → UInt64) (tables : List (List Rela)) :
    Recorded env slots (env.recorded tables) (retrace_android_rebind env slots tables) := by
  have hstart : Recorded env slots [] { slots := slots } :=
    ⟨rfl, by simp, fun _ _ => rfl, fun x => ⟨by simp, by rintro ⟨pre, t, hpre, -⟩; simp at hpre⟩⟩
  have := hstart.run tables.flatten
  rwa [nil_append, foldl_flatten] at this

theorem real_for_iff (hknown : ∀ t ∈ ts, env.get_real t.name = some t.real ∧
    t.name.take (REAL_NAME_SIZE - 1) = t.name)
    (hreal : env.get_real name = some real) :
    retrace_android_real_for (ts.map realOf) name = env.get_real name ↔ ∃ t ∈ ts, t.name = name := by
  rw [retrace_android_real_for, find?_map, Option.map_map]
  constructor
  · intro hfound
    obtain ⟨t, hfind, -⟩ := Option.map_eq_some_iff.mp (hfound.trans hreal)
    have hmem := mem_of_find?_eq_some hfind
    refine ⟨t, hmem, ?_⟩
    rw [← (hknown t hmem).2]
    simpa [realOf] using find?_some hfind
  · rintro ⟨t, ht, rfl⟩
    obtain ⟨t', hfind⟩ := Option.isSome_iff_exists.mp (find?_isSome.mpr
      ⟨t, ht, by simp [realOf, (hknown t ht).2]⟩ : (ts.find? ((·.1 == t.name) ∘ realOf)).isSome)
    obtain ⟨hreal', htake⟩ := hknown t' (mem_of_find?_eq_some hfind)
    have hname : t'.name = t.name := by
      rw [← htake]
      simpa [realOf] using find?_some hfind
    rw [hfind, ← hname, hreal']
    rfl

/-- Every slot that was overwritten has its real implementation on record exactly when each recorded entry that
overwrites its slot has a name that is among those of the first 512. -/
theorem realsKept_iff (env : Env) (slots : UInt64 → UInt64) (tables : List (List Rela)) :
    RealsKept env (retrace_android_rebind env slots tables) ↔
      ∀ pre t, pre ++ [t] <+: env.recorded tables → env.Overwrites slots pre t →
        ∃ t' ∈ (env.recorded tables).take REALS_MAX, t'.name = t.name := by
  have h := recorded_rebind env slots tables
  have hiff : ∀ pre t, pre ++ [t] <+: env.recorded tables →
      (retrace_android_real_for (retrace_android_rebind env slots tables).reals t.name = env.get_real t.name ↔
        ∃ t' ∈ (env.recorded tables).take REALS_MAX, t'.name = t.name) := by
    intro pre t hpre
    rw [h.reals]
    exact real_for_iff (fun t' ht' => h.known t' (mem_of_mem_take ht')) (h.known t (hpre.subset (by simp))).1
  constructor
  · intro hkept pre t hpre hover
    exact (hiff pre t hpre).mp (hkept _ ((h.rebound _).mpr ⟨pre, t, hpre, hover, rfl⟩))
  · intro hall x hx
    obtain ⟨pre, t, hpre, hover, rfl⟩ := (h.rebound x).mp hx
    exact (hiff pre t hpre).mpr (hall pre t hpre hover)

/-- A library with a trampoline for `open` and one for `read`. -/
def twoTrampolines : Env where
  exec_base := 0
  self_base := 0
  self_end := 16
  st_name := id
  strtab := bytes "\x00open\x00read\x00"
  dlsym := fun s => if s = wrap_alias (bytes "open") then some 4
    else if s = wrap_alias (bytes "read") then some 8 else none
  get_real := fun _ => some 32
  mprotect := fun _ => true
  short := by
    intro name ours h _ _
    have hlen : (wrap_alias name).length = 19 := by
      split_ifs at h with hopen hread
      · rw [hopen]
        rfl
      · rw [hread]
        rfl
    rw [wrap_alias, length_take, length_append] at hlen
    have : (bytes "__retrace_wrap_").length = 15 ∧ ALIAS_SIZE = 96 := by decide
    omega

/-- With 512 entries for `open` the one for `read` is not recorded, and its slot is overwritten all the same. -/
theorem repeated_names_overflow : ¬RealsKept twoTrampolines
    (retrace_android_rebind twoTrampolines
      (fun _ => 0) [replicate 512 ⟨0x2000, 1, 1026⟩ ++ [⟨0x3000, 6, 1026⟩]]) := by
  intro h
  have hmem : ((0x3000, bytes "read") : UInt64 × Bytes) ∈ (retrace_android_rebind twoTrampolines (fun _ => 0)
    [replicate 512 ⟨0x2000, 1, 1026⟩ ++ [⟨0x3000, 6, 1026⟩]]).rebound := by decide +kernel
  exact absurd (h _ hmem) (by decide +kernel)

end Retrace.Android
