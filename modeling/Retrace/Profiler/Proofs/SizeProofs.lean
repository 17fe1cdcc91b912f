import Retrace.Profiler.Proofs.ScanProofs

/-!
# The size of a trace

A trace does not hold more entries and strings than its text has bytes, so the counters of a profile do not
wrap around.
-/

namespace Retrace.Profiler

open CLib Parson List Option

variable {v : JsonValue} {s : ScanState}

mutual

def strings : JsonValue → List Bytes
  | .string s => [s]
  | .array items => strings_items items
  | .object members => strings_members members
  | _ => []

def strings_items : List JsonValue → List Bytes
  | [] => []
  | v :: vs => strings v ++ strings_items vs

def strings_members : List (Bytes × JsonValue) → List Bytes
  | [] => []
  | (_, v) :: ms => strings v ++ strings_members ms

end

theorem strings_items_eq (vs : List JsonValue) : strings_items vs = vs.flatMap strings := by
  induction vs with
  | nil => rfl
  | cons v vs ih => rw [strings_items, ih, flatMap_cons]

theorem strings_members_eq (ms : JsonObject) : strings_members ms = ms.flatMap fun m => strings m.2 := by
  induction ms with
  | nil => rfl
  | cons m ms ih => rw [strings_members, ih, flatMap_cons]

theorem strings_rows {f : α → List Bytes} (h : Rows E t xs)
    (hE : ∀ t x, E t x → (f x).length ≤ t.length) : (xs.flatMap f).length ≤ t.length := by
  induction h with
  | nil => simp
  | @single w t w' x _ h _ =>
    have := hE t x h
    simp only [flatMap_cons, flatMap_nil, append_nil, length_append]
    omega
  | @cons w t w' u x xs _ h _ _ ih =>
    have := hE t x h
    simp only [flatMap_cons, length_append, length_cons]
    omega

theorem strings_step (h : ValueText (fun t v => (strings v).length ≤ t.length) t v) :
    (strings v).length ≤ t.length := by
  cases h with
  | array h =>
    have := strings_rows h fun _ _ h => h
    rw [strings, strings_items_eq, length_cons, length_append]
    omega
  | object h =>
    have := strings_rows (f := fun m => strings m.2) h fun t m hm => by
      obtain ⟨text, w, u, -, -, -, hu, rfl⟩ := hm
      simp only [length_cons, length_append]
      omega
    rw [strings, strings_members_eq, length_cons, length_append]
    omega
  | _ => simp [strings]

theorem dropBom_length (s : Bytes) : (dropBom s).length ≤ s.length := by
  unfold dropBom
  split
  · split_ifs
    · simp only [length_cons]
      omega
    · exact le_rfl
  · exact le_rfl

theorem strings_le_of_parse {s : Bytes} (h : json_parse_string s = some v) : (strings v).length ≤ s.length := by
  simp only [json_parse_string, map_eq_some_iff, Prod.exists] at h
  obtain ⟨v', r, hv, rfl⟩ := h
  obtain ⟨t, hs, hle⟩ := parse_value_induction (E := fun _ t v => (strings v).length ≤ t.length)
    (fun _ w t v _ h => by have := strings_step h; rw [length_append]; omega) _ _ _ _ hv
  have hbom := dropBom_length s
  rw [hs, length_append] at hbom
  omega

def ScanState.held (s : ScanState) : Nat := if s.depth = 0 then 0 else s.slice.length

theorem scan_step_inside (hs : s.depth ≠ 0) :
    (scan_step s c).1.slice = s.slice ++ [c] ∧ ((scan_step s c).2 = none ∨
      ((scan_step s c).2 = some (s.slice ++ [c]) ∧ (scan_step s c).1.depth = 0)) := by
  rw [scan_step, if_neg hs]
  by_cases hstr : s.in_str = true
  · simp only [hstr, if_true]
    split_ifs <;> exact ⟨rfl, .inl rfl⟩
  · simp only [hstr, Bool.false_eq_true, if_false]
    split_ifs with hquote hopen hclose hlast
    · exact ⟨rfl, .inl rfl⟩
    · exact ⟨rfl, .inl rfl⟩
    · exact ⟨rfl, .inr ⟨rfl, by simp [hlast]⟩⟩
    · exact ⟨rfl, .inl rfl⟩
    · exact ⟨rfl, .inl rfl⟩

theorem scan_step_outside (hs : s.depth = 0) (c : UInt8) :
    (scan_step s c).2 = none ∧ (scan_step s c).1.held ≤ 1 := by
  rw [scan_step, if_pos hs]
  split_ifs
  · exact ⟨rfl, by simp [ScanState.held]⟩
  · exact ⟨rfl, by simp [ScanState.held, hs]⟩

theorem scan_step_length (s : ScanState) (c : UInt8) :
    ((scan_step s c).2.toList.map List.length).sum + (scan_step s c).1.held ≤ s.held + 1 := by
  by_cases hs : s.depth = 0
  · obtain ⟨hnone, hheld⟩ := scan_step_outside hs c
    simp only [hnone, toList_none, map_nil, sum_nil]
    omega
  · obtain ⟨hslice, hnone | ⟨hsome, hdepth⟩⟩ := scan_step_inside hs
    · have hheld : (scan_step s c).1.held ≤ s.slice.length + 1 := by
        rw [ScanState.held, hslice, length_append, length_singleton]
        split_ifs <;> omega
      simp only [hnone, toList_none, map_nil, sum_nil, ScanState.held, if_neg hs] at hheld ⊢
      omega
    · simp [hsome, ScanState.held, hdepth, hs]

theorem scan_loop_length (s : ScanState) (text : Bytes) :
    ((scan_loop s text).map List.length).sum ≤ s.held + text.length := by
  induction text generalizing s with
  | nil => simp [scan_loop]
  | cons c text ih =>
    rw [scan_loop, map_append, sum_append, length_cons]
    have hstep := scan_step_length s c
    have hrest := ih (scan_step s c).1
    omega

theorem scan_step_ne_nil (h : slice ∈ (scan_step s c).2.toList) : slice ≠ [] := by
  by_cases hs : s.depth = 0
  · rw [(scan_step_outside hs c).1] at h
    cases h
  · obtain ⟨-, hnone | ⟨hsome, -⟩⟩ := scan_step_inside hs
    · rw [hnone] at h
      cases h
    · rw [hsome] at h
      obtain rfl : slice = s.slice ++ [c] := by simpa using h
      simp

theorem scan_loop_ne_nil {text : Bytes} (h : slice ∈ scan_loop s text) : slice ≠ [] := by
  induction text generalizing s with
  | nil => simp [scan_loop] at h
  | cons c text ih =>
    rw [scan_loop, mem_append] at h
    rcases h with h | h
    · exact scan_step_ne_nil h
    · exact ih h

def entry_weight : Option JsonObject → Nat
  | none => 0
  | some o => 1 + (strings (.object o)).length

theorem trace_weight (text : Bytes) : ((corr_stream_scan text).1.map entry_weight).sum ≤ 2 * text.length := by
  have hslices : ∀ slices : List Bytes, (∀ slice ∈ slices, slice ≠ []) →
      ((((slices.map fun slice => json_parse_string (cstr slice)).filterMap fun v =>
        v.map json_value_get_object).map
        entry_weight).sum ≤ 2 * (slices.map List.length).sum) := by
    intro slices hne
    induction slices with
    | nil => simp
    | cons slice slices ih =>
      have hrest := ih fun x hx => hne x (mem_cons_of_mem _ hx)
      have hpos := length_pos_iff.mpr (hne slice (by simp))
      cases hv : json_parse_string (cstr slice) with
      | none =>
        simp only [map_cons, hv, filterMap_cons, map_none, sum_cons]
        omega
      | some v =>
        have hcstr := cstr_length_le slice
        have hle := strings_le_of_parse hv
        have hentry : entry_weight (json_value_get_object v) ≤ 2 * slice.length := by
          cases v with
          | object o =>
            rw [json_value_get_object, entry_weight]
            omega
          | _ => simp [json_value_get_object, entry_weight]
        simp only [map_cons, hv, filterMap_cons, map_some, sum_cons]
        omega
  have hlen := scan_loop_length {} text
  have hheld : ScanState.held {} = 0 := rfl
  have hall := hslices (scan_loop {} text) fun slice h => scan_loop_ne_nil h
  rw [corr_stream_scan]
  dsimp only
  omega

end Retrace.Profiler
