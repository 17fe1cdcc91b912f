import Retrace.Json.Proofs.SerializeProofs

/-!
# Values that are built

A value that is put together with the setters is well formed when its parts are, and its numbers are those of the
parts.
-/

namespace Retrace.Parson

open CLib List

theorem foldl_append_string (acc : List JsonValue) (xs : List Bytes) :
    xs.foldl json_array_append_string acc = acc ++ ((xs.map cstr).filter is_valid_utf8).map .string := by
  induction xs generalizing acc with
  | nil => simp
  | cons x xs ih =>
    rw [foldl_cons, ih, json_array_append_string, json_value_init_string]
    by_cases hx : is_valid_utf8 (cstr x) = true <;> simp [hx]

theorem wellFormed_strings (xs : List Bytes) (depth : Nat) :
    WellFormed P (depth + 2) (.array (xs.foldl json_array_append_string [])) := by
  refine .array fun v hv => ?_
  rw [foldl_append_string, nil_append] at hv
  obtain ⟨s, hs, rfl⟩ := mem_map.mp hv
  obtain ⟨x, -, rfl⟩ := mem_map.mp (mem_of_mem_filter hs)
  exact .string (not_mem_zero_cstr x)

theorem wellFormed_empty (depth : Nat) : WellFormed P (depth + 1) (.object []) :=
  .object (by simp) (by simp) (by simp)

theorem wellFormed_set_string (hname : 0 ∉ name) (ho : WellFormed P (depth + 2) (.object o)) (s : Bytes) :
    WellFormed P (depth + 2) (.object (json_object_set_string o name s)) := by
  rw [json_object_set_string, json_value_init_string]
  split_ifs
  · exact ho.set_value hname (.string (not_mem_zero_cstr s))
  · exact ho

theorem WellFormed.set_number (ho : WellFormed P (depth + 2) (.object o))
    (hname : 0 ∉ name) (hd : P d) : WellFormed P (depth + 2) (.object (json_object_set_number o name d)) :=
  ho.set_value hname (.number hd)

theorem WellFormed.allNumbers (h : WellFormed (p · = true) depth v) : allNumbers p v = true := by
  induction h with
  | null | boolean | string => rfl
  | number hd => exact hd
  | array _ ih => exact allNumbersItems_iff.mpr ih
  | object _ _ _ ih => exact allNumbersMembers_iff.mpr ih

theorem allNumbers_of_get_value (ho : allNumbers p (.object o) = true)
    (hv : json_object_get_value (some o) k = some v) : allNumbers p v = true := by
  rw [allNumbers, allNumbersMembers_iff] at ho
  rw [json_object_get_value, Option.bind_some] at hv
  obtain ⟨l₁, l₂, rfl, -⟩ := lookup_eq_some_iff.mp hv
  exact ho (k, v) (by simp)

end Retrace.Parson
