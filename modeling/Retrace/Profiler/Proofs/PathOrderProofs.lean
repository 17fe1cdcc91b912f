import Retrace.Profiler.PathOrder
import Retrace.Profiler.Proofs.AggregateProofs

/-!
# When paths are in order

Byte by byte the paths are ordered, and so are the paths with a drive when the case of the letter is left out.
The comparison takes one order for two paths with a drive and the other one otherwise, so it is an order of a
set of paths exactly when no path without a drive stands between two with a drive that the two orders put in
different places. Where it is an order the sorted set is searched exactly.
-/

namespace Retrace.Profiler

open CLib Bisection List

variable {qsort : List Bytes → List Bytes}

theorem strcmp_swap (s t : Bytes) : strcmp t s = (strcmp s t).swap := by
  induction s generalizing t with
  | nil => cases t <;> rfl
  | cons a s ih =>
    cases t with
    | nil => rfl
    | cons b t =>
      rw [strcmp, strcmp]
      by_cases hab : a < b
      · simp [hab, UInt8.lt_asymm hab]
      · by_cases hba : b < a
        · simp [hab, hba]
        · simp [hab, hba, ih]

theorem strcmp_cons_le_iff : strcmp (a :: s) (b :: t) ≠ .gt ↔ a < b ∨ a = b ∧ strcmp s t ≠ .gt := by
  rw [strcmp]
  by_cases hab : a < b
  · simp [hab]
  · by_cases hba : b < a
    · simp [hba, UInt8.lt_asymm hba, (UInt8.ne_of_lt hba).symm]
    · obtain rfl := UInt8.le_antisymm (UInt8.not_lt.mp hba) (UInt8.not_lt.mp hab)
      simp

theorem strcmp_le_trans (hst : strcmp s t ≠ .gt) (htu : strcmp t u ≠ .gt) : strcmp s u ≠ .gt := by
  induction s generalizing t u with
  | nil => cases u <;> simp [strcmp]
  | cons a s ih =>
    cases t with
    | nil => simp [strcmp] at hst
    | cons b t =>
      cases u with
      | nil => simp [strcmp] at htu
      | cons c u =>
        rw [strcmp_cons_le_iff] at hst htu ⊢
        rcases hst with hab | ⟨rfl, hst⟩
        · rcases htu with hbc | ⟨rfl, -⟩
          · exact .inl (UInt8.lt_trans hab hbc)
          · exact .inl hab
        · rcases htu with hbc | ⟨rfl, htu⟩
          · exact .inl hbc
          · exact .inr ⟨rfl, ih hst htu⟩

theorem strcmp_lt_of_le (h : strcmp s t ≠ .gt) (hne : s ≠ t) : strcmp s t = .lt := by
  cases hcmp : strcmp s t with
  | lt => rfl
  | eq => exact absurd (eq_of_strcmp hcmp) hne
  | gt => exact absurd hcmp h

theorem strcmp_lt_of_gt (h : strcmp s t = .gt) : strcmp t s = .lt := by
  rw [strcmp_swap s t, h]
  rfl

theorem strcmp_le_of_lt (h : strcmp s t = .lt) : strcmp s t ≠ .gt := by
  rw [h]
  exact fun h => nomatch h

theorem has_drive_cases (h : has_drive a = true) : ∃ c r, a = c :: colon :: r := by
  rw [has_drive, Bool.and_eq_true, beq_iff_eq] at h
  cases a with
  | nil => simp at h
  | cons c a =>
    cases a with
    | nil => simp at h
    | cons d r =>
      obtain rfl : d = colon := by simpa using h.2
      exact ⟨c, r, rfl⟩

theorem corr_pathcmp_drives (ha : has_drive a = true) (hb : has_drive b = true) :
    corr_pathcmp a b = strcmp (fold_drive a) (fold_drive b) := by
  rw [corr_pathcmp, if_pos ⟨ha, hb⟩]
  obtain ⟨c, r, rfl⟩ := has_drive_cases ha
  obtain ⟨d, t, rfl⟩ := has_drive_cases hb
  simp [fold_drive, strcmp]

theorem corr_pathcmp_plain (h : has_drive a = false ∨ has_drive b = false) : corr_pathcmp a b = strcmp a b := by
  rw [corr_pathcmp, if_neg]
  rcases h with h | h <;> simp [h]

theorem corr_pathcmp_swap (a b : Bytes) : corr_pathcmp b a = (corr_pathcmp a b).swap := by
  by_cases h : has_drive a = true ∧ has_drive b = true
  · rw [corr_pathcmp_drives h.1 h.2, corr_pathcmp_drives h.2 h.1, strcmp_swap]
  · have hplain : has_drive a = false ∨ has_drive b = false := by
      rcases Classical.not_and_iff_not_or_not.mp h with h | h
      · exact .inl (Bool.not_eq_true _ ▸ h)
      · exact .inr (Bool.not_eq_true _ ▸ h)
    rw [corr_pathcmp_plain hplain, corr_pathcmp_plain hplain.symm, strcmp_swap]

theorem ne_of_has_drive (ha : has_drive a = true) (hb : has_drive b = false) : a ≠ b := by
  rintro rfl
  rw [ha] at hb
  cases hb

theorem Separated.trans (h : Separated S) (ha : a ∈ S) (hb : b ∈ S) (hc : c ∈ S)
    (hab : corr_pathcmp a b ≠ .gt) (hbc : corr_pathcmp b c ≠ .gt) : corr_pathcmp a c ≠ .gt := by
  cases hda : has_drive a <;> cases hdb : has_drive b <;> cases hdc : has_drive c
  · rw [corr_pathcmp_plain (.inl hda)] at hab ⊢
    rw [corr_pathcmp_plain (.inl hdb)] at hbc
    exact strcmp_le_trans hab hbc
  · rw [corr_pathcmp_plain (.inl hda)] at hab ⊢
    rw [corr_pathcmp_plain (.inl hdb)] at hbc
    exact strcmp_le_trans hab hbc
  · rw [corr_pathcmp_plain (.inl hda)] at hab ⊢
    rw [corr_pathcmp_plain (.inr hdc)] at hbc
    exact strcmp_le_trans hab hbc
  · rw [corr_pathcmp_plain (.inl hda)] at hab ⊢
    rw [corr_pathcmp_drives hdb hdc] at hbc
    intro hgt
    have hlt := strcmp_lt_of_le hab (ne_of_has_drive hdb hda).symm
    exact h b hb c hc a ha hdb hdc hda hbc ⟨strcmp_lt_of_gt hgt, hlt⟩
  · rw [corr_pathcmp_plain (.inr hdb)] at hab
    rw [corr_pathcmp_plain (.inl hdb)] at hbc
    rw [corr_pathcmp_plain (.inr hdc)]
    exact strcmp_le_trans hab hbc
  · rw [corr_pathcmp_plain (.inr hdb)] at hab
    rw [corr_pathcmp_plain (.inl hdb)] at hbc
    rw [corr_pathcmp_drives hda hdc]
    intro hgt
    have hle := strcmp_le_of_lt (strcmp_lt_of_gt hgt)
    exact h c hc a ha b hb hdc hda hdb hle
      ⟨strcmp_lt_of_le hab (ne_of_has_drive hda hdb), strcmp_lt_of_le hbc (ne_of_has_drive hdc hdb).symm⟩
  · rw [corr_pathcmp_drives hda hdb] at hab
    rw [corr_pathcmp_plain (.inr hdc)] at hbc ⊢
    intro hgt
    have hlt := strcmp_lt_of_le hbc (ne_of_has_drive hdb hdc)
    exact h a ha b hb c hc hda hdb hdc hab ⟨hlt, strcmp_lt_of_gt hgt⟩
  · rw [corr_pathcmp_drives hda hdb] at hab
    rw [corr_pathcmp_drives hdb hdc] at hbc
    rw [corr_pathcmp_drives hda hdc]
    exact strcmp_le_trans hab hbc

theorem Separated.orders (h : Separated S) : Orders S where
  antisymm a _ b _ := corr_pathcmp_swap a b
  trans _ ha _ hb _ hc := h.trans ha hb hc

theorem Orders.separated (h : Orders S) : Separated S := by
  rintro x hx y hy z hz hdx hdy hdz hfold ⟨hyz, hzx⟩
  rw [← corr_pathcmp_drives hdx hdy] at hfold
  rw [← corr_pathcmp_plain (.inr hdz)] at hyz
  rw [← corr_pathcmp_plain (.inl hdz)] at hzx
  have hxz := h.trans x hx y hy z hz hfold (by rw [hyz]; exact fun h => nomatch h)
  rw [corr_pathcmp_swap z x, hzx] at hxz
  exact hxz rfl

theorem Orders.mono (h : Orders T) (hST : S ⊆ T) : Orders S where
  antisymm a ha b hb := h.antisymm a (hST ha) b (hST hb)
  trans a ha b hb c hc := h.trans a (hST ha) b (hST hb) c (hST hc)

section

variable (h : Orders S) (ha : a ∈ S) (hb : b ∈ S) (hc : c ∈ S)
include h ha hb hc

theorem Orders.lt_of_le_of_lt (hab : corr_pathcmp a b ≠ .gt) (hbc : corr_pathcmp b c = .lt) :
    corr_pathcmp a c = .lt := by
  have hle := h.trans a ha b hb c hc hab (by rw [hbc]; exact fun h => nomatch h)
  cases hac : corr_pathcmp a c with
  | lt => rfl
  | gt => exact absurd hac hle
  | eq =>
    -- Otherwise `c` is not behind `a` and so not behind `b`.
    have hca : corr_pathcmp c a ≠ .gt := by
      rw [h.antisymm a ha c hc, hac]
      exact fun h => nomatch h
    have hcb := h.trans c hc a ha b hb hca hab
    rw [h.antisymm b hb c hc, hbc] at hcb
    exact absurd rfl hcb

theorem Orders.eq_trans (hab : corr_pathcmp a b = .eq) (hbc : corr_pathcmp b c = .eq) :
    corr_pathcmp a c = .eq := by
  have hle := h.trans a ha b hb c hc (by rw [hab]; exact fun h => nomatch h)
      (by rw [hbc]; exact fun h => nomatch h)
  have hge := h.trans c hc b hb a ha (by rw [h.antisymm b hb c hc, hbc]; exact fun h => nomatch h)
    (by rw [h.antisymm a ha b hb, hab]; exact fun h => nomatch h)
  rw [h.antisymm a ha c hc] at hge
  cases hac : corr_pathcmp a c with
  | lt => simp [hac] at hge
  | eq => rfl
  | gt => exact absurd hac hle

end

theorem ascending_of_sorted (h : Orders S) (hitems : ∀ a ∈ items, a ∈ S) (hp : p ∈ S)
    (hsorted : items.Pairwise fun a b => corr_pathcmp a b ≠ .gt) :
    Ascending (corr_pathcmp · p) items := by
  refine hsorted.imp_of_mem fun {a b} ha hb hab => ⟨fun hlt => ?_, fun hgt => ?_⟩
  · exact h.lt_of_le_of_lt (hitems a ha) (hitems b hb) hp hab hlt
  · have hpa : corr_pathcmp p a = .lt := by
      have hap : corr_pathcmp a p = .gt := hgt
      rw [h.antisymm a (hitems a ha) p hp, hap]
      rfl
    by_contra hnot
    have hbp : corr_pathcmp b p ≠ .gt := hnot
    have hba := h.lt_of_le_of_lt (hitems b hb) hp (hitems a ha) hbp hpa
    rw [h.antisymm a (hitems a ha) b (hitems b hb)] at hba
    cases hcmp : corr_pathcmp a b with
    | lt => simp [hcmp] at hba
    | eq => simp [hcmp] at hba
    | gt => exact hab hcmp

/-- The set holds added paths only, and for each one that compares equal. -/
theorem foldl_add_spec (added : List Bytes) : (∀ a ∈ added.foldl corr_set_add [], a ∈ added) ∧
    ∀ a ∈ added, ∃ x ∈ added.foldl corr_set_add [], corr_pathcmp x a = .eq := by
  induction added using reverseRecOn with
  | nil => simp
  | append_singleton added path ih =>
    obtain ⟨hmem, hequal⟩ := ih
    rw [foldl_concat, corr_set_add]
    split_ifs with hany
    · obtain ⟨x, hx, heq⟩ := any_eq_true.mp hany
      refine ⟨fun a ha => mem_append_left _ (hmem a ha), forall_mem_append.mpr ⟨hequal, ?_⟩⟩
      exact forall_mem_singleton.mpr ⟨x, hx, by simpa using heq⟩
    · have hself : corr_pathcmp path path = .eq := by
        have hswap := corr_pathcmp_swap path path
        cases hcmp : corr_pathcmp path path <;> simp_all
      refine ⟨fun a ha => ?_, forall_mem_append.mpr ⟨fun a ha => ?_, ?_⟩⟩
      · exact mem_append.mpr ((mem_append.mp ha).imp_left (hmem a))
      · obtain ⟨x, hx, heq⟩ := hequal a ha
        exact ⟨x, mem_append_left _ hx, heq⟩
      · exact forall_mem_singleton.mpr ⟨path, by simp, hself⟩

theorem corr_set_finish_perm (hq : Sorts qsort) (s : List Bytes) : (corr_set_finish qsort s).Perm s := by
  rw [corr_set_finish]
  split_ifs
  · exact hq.perm s
  · exact List.Perm.refl s

theorem corr_set_finish_sorted (hq : Sorts qsort) {s : List Bytes}
    (h : Orders {x | x ∈ s}) : (corr_set_finish qsort s).Pairwise fun a b => corr_pathcmp a b ≠ .gt := by
  rw [corr_set_finish]
  split_ifs with hlen
  · exact hq.sorted s h
  · match s, hlen with
    | [], _ => exact List.Pairwise.nil
    | [x], _ => exact pairwise_singleton _ x
    | _ :: _ :: _, hlen => simp at hlen

theorem Orders.corr_set_contains_iff (hq : Sorts qsort)
    (h : Orders S) (hadded : ∀ a ∈ added, a ∈ S) {p : Bytes} (hp : p ∈ S) :
    corr_set_contains (corr_set_of qsort added) p = true ↔ ∃ a ∈ added, corr_pathcmp a p = .eq := by
  obtain ⟨hmem, hequal⟩ := foldl_add_spec added
  have hperm := corr_set_finish_perm hq (added.foldl corr_set_add [])
  have hS : ∀ a ∈ corr_set_of qsort added, a ∈ S := fun a ha => hadded a (hmem a (hperm.mem_iff.mp ha))
  have hsorted := corr_set_finish_sorted hq (h.mono fun a ha => hadded a (hmem a ha))
  rw [corr_set_contains, bisect_iff (ascending_of_sorted h hS hp hsorted)]
  constructor
  · rintro ⟨x, hx, heq⟩
    exact ⟨x, hmem x (hperm.mem_iff.mp hx), heq⟩
  · rintro ⟨a, ha, heq⟩
    obtain ⟨x, hx, hxa⟩ := hequal a ha
    exact ⟨x, hperm.mem_iff.mpr hx, h.eq_trans (hadded x (hmem x hx)) (hadded a ha) hp hxa heq⟩

/-- The comparison is an order of a set of paths, and lookups are exact, exactly when the paths are
separated. -/
theorem path_order_iff (qsort : List Bytes → List Bytes) (hq : Sorts qsort) (S : Set Bytes) :
    ExactLookup qsort S ↔ Separated S := by
  constructor
  · intro h
    exact h.orders.separated
  · intro h
    exact ⟨h.orders, fun _ hadded _ hp => h.orders.corr_set_contains_iff hq hadded hp⟩

def insert_path (a : Bytes) : List Bytes → List Bytes
  | [] => [a]
  | b :: l => if corr_pathcmp a b ≠ .gt then a :: b :: l else b :: insert_path a l

theorem insert_path_perm : (insert_path a l).Perm (a :: l) := by
  induction l with
  | nil => exact List.Perm.refl _
  | cons b l ih =>
    rw [insert_path]
    split_ifs
    · exact List.Perm.refl _
    · exact (ih.cons b).trans (List.Perm.swap a b l)

theorem insert_path_sorted (h : Orders S) (ha : a ∈ S)
    (hl : ∀ b ∈ l, b ∈ S) (hsorted : l.Pairwise fun a b => corr_pathcmp a b ≠ .gt) :
    (insert_path a l).Pairwise fun a b => corr_pathcmp a b ≠ .gt := by
  induction l with
  | nil => exact pairwise_singleton _ a
  | cons b l ih =>
    obtain ⟨hb, hl'⟩ := forall_mem_cons.mp hl
    obtain ⟨hfirst, hrest⟩ := pairwise_cons.mp hsorted
    rw [insert_path]
    split_ifs with hab
    · refine pairwise_cons.mpr ⟨fun c hc => ?_, hsorted⟩
      rcases mem_cons.mp hc with rfl | hc
      · exact hab
      · exact h.trans a ha b hb c (hl' c hc) hab (hfirst c hc)
    · refine pairwise_cons.mpr ⟨fun c hc => ?_, ih hl' hrest⟩
      rcases mem_cons.mp (insert_path_perm.mem_iff.mp hc) with rfl | hc
      · rw [not_not] at hab
        rw [h.antisymm c ha b hb, hab]
        exact fun h => nomatch h
      · exact hfirst c hc

theorem sorts_insertion : Sorts (List.foldr insert_path []) where
  perm l := by
    induction l with
    | nil => exact List.Perm.refl _
    | cons a l ih => exact insert_path_perm.trans (ih.cons a)
  sorted l h := by
    have hperm : ∀ l : List Bytes, (l.foldr insert_path []).Perm l := by
      intro l
      induction l with
      | nil => exact List.Perm.refl _
      | cons a l ih => exact insert_path_perm.trans (ih.cons a)
    induction l with
    | nil => exact List.Pairwise.nil
    | cons a l ih =>
      have hrest := ih (h.mono fun x hx => mem_cons_of_mem a hx)
      exact insert_path_sorted h mem_cons_self
        (fun b hb => mem_cons_of_mem a ((hperm l).mem_iff.mp hb)) hrest

/-- Paths without a drive letter are looked up exactly. -/
theorem path_order_plain : ExactLookup (List.foldr insert_path []) {a | has_drive a = false} := by
  rw [path_order_iff _ sorts_insertion]
  intro x hx _ _ _ _ hdx
  have hplain : has_drive x = false := hx
  rw [hdx] at hplain
  cases hplain

/-- Three paths that follow one another in a circle. -/
theorem pathcmp_circle : corr_pathcmp (bytes "a:y") (bytes "B:z") = .lt ∧
    corr_pathcmp (bytes "B:z") (bytes "Za") = .lt ∧ corr_pathcmp (bytes "Za") (bytes "a:y") = .lt := by
  decide

end Retrace.Profiler
