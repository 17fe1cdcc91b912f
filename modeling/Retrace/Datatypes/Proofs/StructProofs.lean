import Retrace.Datatypes.Struct

/-!
# When the offsets of the members agree with the size

`get_member` goes past an array as past one of its elements.
-/

namespace Retrace.Datatypes

open CLib List

theorem member_loop_append {before : List (StructMember × Size)}
    (hfixed : ∀ m ∈ before, ∃ t, types m.1.type = some t ∧ ∀ data, t.get_size data = some m.2)
    (hnamed : ∀ m ∈ before, m.1.name ≠ [] ∧ m.1.name ≠ name) :
    member_loop types name (before.map Prod.fst ++ rest) data =
      member_loop types name rest (data + (before.map Prod.snd).sum) := by
  induction before generalizing data with
  | nil => simp
  | cons m before ih =>
    rw [forall_mem_cons] at hfixed hnamed
    obtain ⟨⟨t, htype, hsize⟩, hfixed⟩ := hfixed
    obtain ⟨⟨hne, hother⟩, hnamed⟩ := hnamed
    rw [map_cons, cons_append, member_loop, htype]
    simp only [hne, hother, or_self, if_false, hsize]
    rw [ih hfixed hnamed, map_cons, sum_cons, add_assoc]

theorem get_member_split (s : Struct types) (h : s.members = before ++ m :: rest) (data : Size) :
    ∃ t, get_member types s.table data m.1.name = .ok (t, data + (before.map Prod.snd).sum) ∧
      ∀ data, t.get_size data = some m.2 := by
  have hmem : ∀ x ∈ before, x ∈ s.members := fun x hx => h ▸ mem_append_left _ hx
  have hdistinct := s.distinct
  rw [h, map_append, map_cons, nodup_middle, nodup_cons, ← map_append] at hdistinct
  obtain ⟨t, htype, hsize⟩ := s.fixed m (by simp [h])
  refine ⟨t, ?_, hsize⟩
  rw [get_member, Struct.table, h, map_append, append_assoc,
    member_loop_append (fun x hx => s.fixed x (hmem x hx)) (fun x hx => ⟨s.named x (hmem x hx), fun heq => ?_⟩)]
  · rw [map_cons, cons_append, member_loop, htype]
    simp
  · exact hdistinct.1 (heq ▸ mem_map_of_mem (mem_append_left _ hx))

theorem retrace_struct_get_size_eq {s : Struct types} :
    retrace_struct_get_size types s.table data = (0, (s.members.map extent).sum) := by
  have hloop : ∀ after before, s.members = before ++ after → ∀ dst,
      size_loop types s.table data (after.map Prod.fst ++ [⟨[], [], false, 0⟩]) dst =
        (0, dst + (after.map extent).sum) := by
    intro after
    induction after with
    | nil => simp [size_loop]
    | cons m after ih =>
      intro before h dst
      obtain ⟨t, hget, hsize⟩ := get_member_split s h data
      have hext : (if m.1.array then m.1.array_cnt * m.2 else m.2) = extent m := by
        unfold extent
        split_ifs <;> ring
      rw [map_cons, cons_append, size_loop, if_neg (s.named m (by simp [h])), hget]
      simp only [hsize, hext]
      rw [ih (before ++ [m]) (by simp [h]), map_cons, sum_cons, add_assoc]
  have hall := hloop s.members [] rfl 0
  rwa [zero_add] at hall

/-- The offsets and the size of a struct agree exactly when every member but the last one takes as much as one
element of it. -/
theorem layoutAgrees_iff {types : Types} (s : Struct types) (data : Size) :
    LayoutAgrees s data ↔ ∀ m ∈ s.members.dropLast, extent m = m.2 := by
  constructor
  · intro h m hm
    obtain ⟨before, after, hsplit⟩ := append_of_mem hm
    have hne : s.members ≠ [] := by
      rintro hnil
      simp [hnil] at hm
    have hmembers := dropLast_append_getLast hne
    generalize s.members.getLast hne = z at hmembers
    rw [hsplit] at hmembers
    -- The next member is found behind one element of `m`, and `m` itself at the sum of the extents.
    obtain ⟨y, rest, hrest⟩ : ∃ y rest, after ++ [z] = y :: rest := exists_cons_of_ne_nil (by simp)
    have hat : s.members = before ++ m :: y :: rest := by simp [← hmembers, ← hrest]
    have hnext : s.members = (before ++ [m]) ++ y :: rest := by simp [hat]
    have h₁ := h.offsets _ _ _ hat
    have h₂ := h.offsets _ _ _ hnext
    obtain ⟨t₁, hget₁, -⟩ := get_member_split s hat data
    obtain ⟨t₂, hget₂, -⟩ := get_member_split s hnext data
    rw [hget₁] at h₁
    rw [hget₂] at h₂
    simp only [Except.map, Except.ok.injEq, add_right_inj, map_append, sum_append, map_singleton,
      sum_singleton] at h₁ h₂
    rw [h₁, add_right_inj] at h₂
    exact h₂.symm
  · intro h
    have hsum : ∀ before m after, s.members = before ++ m :: after →
        (before.map Prod.snd).sum = (before.map extent).sum := by
      intro before m after hsplit
      refine congrArg sum (map_congr_left fun x hx => (h x ?_).symm)
      rw [hsplit, dropLast_append_cons]
      exact mem_append_left _ hx
    refine ⟨fun before m after hsplit => ?_, fun before m hsplit => ?_⟩
    · obtain ⟨t, hget, -⟩ := get_member_split s hsplit data
      rw [hget, ← hsum _ _ _ hsplit]
      rfl
    · obtain ⟨t, hget, -⟩ := get_member_split s hsplit data
      refine ⟨_, by rw [hget]; rfl, ?_⟩
      rw [retrace_struct_get_size_eq, hsum _ _ _ hsplit, hsplit, map_append, sum_append,
        map_singleton, sum_singleton]
      congr 1
      ring

def intTypes : Types := fun _ => some ⟨fun _ => some 4⟩

/-- `int a[2]; int b`. -/
def arrayThenInt : Struct intTypes where
  members := [(⟨bytes "a", bytes "int", true, 2⟩, 4), (⟨bytes "b", bytes "int", false, 0⟩, 4)]
  fixed := by simp [intTypes]
  named := by decide
  distinct := by decide

/-- The member `b` is found where the second element of `a` is. -/
theorem array_as_element : ¬ LayoutAgrees arrayThenInt 0 := by
  intro h
  have hfound : (get_member intTypes arrayThenInt.table 0 (bytes "b")).map Prod.snd = .ok 4 := rfl
  exact absurd (Except.ok.inj (hfound.symm.trans (h.offsets [_] _ [] rfl))) (by decide)

end Retrace.Datatypes
