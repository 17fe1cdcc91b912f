import Retrace.Profiler.Proofs.TallyProofs
import Retrace.Json.Proofs.PrettyProofs
import Retrace.Json.Proofs.BuildProofs

/-!
# When the validator accepts the document

The document is parsed back when no duration in it is subnormal, and then every rule holds but for the names of
the addresses: those are cut at the size of a buffer, and a cut inside of a character leaves a name that the
document does not take.
-/

namespace Retrace.Profiler

open CLib Parson List

variable {entry : Option JsonObject} {name : Bytes} {t : ProfTiming}

section

variable (n : Nat)

theorem isDouble_sizeToDouble : IsDouble (sizeToDouble n) := by
  have hlt : (n % 2 ^ 64 : Nat) < 2 ^ 64 := Nat.mod_lt _ (by norm_num)
  have hlt' : ((n % 2 ^ 64 : Nat) : ℚ) < 2 ^ (64 : ℤ) := by exact_mod_cast hlt
  have hlow : (2 : ℚ) ^ (64 : ℤ) < 2 ^ (970 : ℤ) := zpow_lt_zpow_right₀ one_lt_two (by norm_num)
  have hdouble : (2 : ℚ) ^ (971 : ℤ) = 2 ^ (970 : ℤ) * 2 := zpow_add_one₀ two_ne_zero 970
  have hhigh : (2 : ℚ) ^ (971 : ℤ) ≤ 2 ^ (1024 : ℤ) := zpow_le_zpow_right₀ one_le_two (by norm_num)
  refine isDouble_roundDouble ?_
  rw [abs_of_nonneg (Nat.cast_nonneg _)]
  calc ((n % 2 ^ 64 : Nat) : ℚ) < 2 ^ (970 : ℤ) := hlt'.trans hlow
    _ = 2 ^ (971 : ℤ) - 2 ^ (970 : ℤ) := by rw [hdouble]; ring
    _ ≤ 2 ^ (1024 : ℤ) - 2 ^ (970 : ℤ) := sub_le_sub_right hhigh _

theorem sizeToDouble_cases : sizeToDouble n = 0 ∨ 1 ≤ sizeToDouble n := by
  rcases Nat.eq_zero_or_pos (n % 2 ^ 64) with h | h
  · left
    rw [sizeToDouble, h, Nat.cast_zero, roundDouble, if_pos rfl]
  · right
    exact one_le_roundDouble (by exact_mod_cast h)

theorem sizeToDouble_nonneg : 0 ≤ sizeToDouble n := by
  rcases sizeToDouble_cases n with h | h
  · exact h.ge
  · linarith

theorem notSubnormal_sizeToDouble : notSubnormal (sizeToDouble n) = true := by
  rcases sizeToDouble_cases n with h | h
  · simp [notSubnormal, h]
  · have hmin : (2 : ℚ) ^ (-1022 : ℤ) ≤ 1 := zpow_le_one_of_nonpos₀ one_le_two (by norm_num)
    rw [notSubnormal, decide_eq_true_eq, abs_of_nonneg (by linarith)]
    exact .inr (hmin.trans h)

end

theorem one_le_sizeToDouble (h1 : 1 ≤ n) (h2 : n ≤ 2 ^ 64 - 1) : 1 ≤ sizeToDouble n := by
  rw [sizeToDouble, Nat.mod_eq_of_lt (by omega)]
  exact one_le_roundDouble (by exact_mod_cast h1)

structure ProfTiming.Doubles (t : ProfTiming) : Prop where
  total : ∀ d, t.total_us = .finite d → IsDouble d
  max : IsDouble t.max_us
  samples : ∀ d ∈ t.samples, IsDouble d

theorem ProfTiming.doubles_new (func : Bytes) : ({ func } : ProfTiming).Doubles where
  total := by
    intro d hd
    cases hd
    exact isDouble_zero
  max := isDouble_zero
  samples := by simp

theorem Total.isDouble_add {t : Total} (h : t.add us = .finite d) : IsDouble d := by
  cases t with
  | finite q =>
    rw [Total.add] at h
    split_ifs at h with hlt
    cases h
    exact isDouble_roundDouble hlt
  | infinite negative => cases h

theorem ProfTiming.Doubles.record (h : t.Doubles) (hus : IsDouble us) :
    (t.record us).Doubles where
  total := fun _ hd => Total.isDouble_add hd
  max := by
    simp only [ProfTiming.record]
    split_ifs
    · exact hus
    · exact h.max
  samples := by
    intro d hd
    simp only [ProfTiming.record] at hd
    split_ifs at hd
    · rcases mem_append.mp hd with hd | hd
      · exact h.samples d hd
      · rw [mem_singleton.mp hd]
        exact hus
    · exact h.samples d hd

theorem ProfTiming.Doubles.p99 (h : t.Doubles) : IsDouble (prof_timing_p99 t) := by
  rw [prof_timing_p99, getD_eq_getElem?_getD]
  cases hget : (t.samples.insertionSort (· ≤ ·))[if 100 ≤ t.samples.length then
      t.samples.length - t.samples.length / 100 else t.samples.length - 1]? with
  | none => exact isDouble_zero
  | some d => exact h.samples d ((mem_insertionSort _).mp (mem_of_getElem? hget))

theorem isDouble_get_number (h : WellFormed IsDouble (depth + 1) (.object o)) :
    IsDouble (json_object_get_number (some o) name) := by
  rw [json_object_get_number]
  split
  · next d hd =>
    cases h.lookup hd with
    | number hd => exact hd
  · exact isDouble_zero

theorem doubles_add_entry (h : ∀ t ∈ timings, t.Doubles)
    (hentry : ∀ o, entry = some o → WellFormed IsDouble (MAX_NESTING + 1) (.object o)) :
    ∀ t ∈ timing_add_entry timings entry, t.Doubles := by
  unfold timing_add_entry
  split
  · exact h
  · next msg hmsg =>
    split_ifs
    · exact h
    · unfold add_summary
      split
      · exact h
      · exact h
      · next func _ _ =>
        have hus : IsDouble (json_object_get_number (some msg) (bytes "call_duration_us")) := by
          cases entry with
          | none => cases hmsg
          | some o =>
            obtain ⟨v, hv, hobj⟩ := Option.bind_eq_some_iff.mp hmsg
            have hwf := (hentry o rfl).lookup hv
            cases v with
            | object m =>
              obtain rfl : m = msg := by simpa [json_value_get_object] using hobj
              exact isDouble_get_number hwf
            | _ => simp [json_value_get_object] at hobj
        refine forall_upsert h (fun t ht => ht) (fun t ht => ht.record hus) ?_
        exact (ProfTiming.doubles_new _).record hus
    · exact h

theorem trace_timings_doubles : ∀ t ∈ trace_timings text, t.Doubles := by
  have hfold : ∀ (entries : List (Option JsonObject)) (timings : List ProfTiming), (∀ t ∈ timings, t.Doubles) →
      (∀ entry ∈ entries, ∀ o, entry = some o → WellFormed IsDouble (MAX_NESTING + 1) (.object o)) →
      ∀ t ∈ entries.foldl timing_add_entry timings, t.Doubles := by
    intro entries
    induction entries with
    | nil => exact fun timings h _ => h
    | cons entry entries ih =>
      intro timings h hentries
      obtain ⟨hentry, hentries⟩ := forall_mem_cons.mp hentries
      exact ih _ (doubles_add_entry h hentry) hentries
  refine hfold _ [] (by simp) ?_
  rintro entry hentry o rfl
  exact wellFormed_of_mem_scan hentry

theorem mem_of_mem_top (h : t ∈ top_timings n timings) : t ∈ timings := by
  induction n generalizing timings with
  | zero => simp [top_timings] at h
  | succ n ih =>
    cases timings with
    | nil => simp [top_timings] at h
    | cons x xs =>
      rw [top_timings] at h
      split at h
      · rcases mem_cons.mp h with rfl | h
        · exact mem_cons_self
        · exact mem_cons_of_mem _ (ih h)
      · split at h
        · next best hbest =>
          rcases mem_cons.mp h with rfl | h
          · exact mem_cons_of_mem _ (mem_of_getElem? hbest)
          · rcases mem_or_eq_of_mem_set (ih h) with h | rfl
            · exact mem_cons_of_mem _ h
            · exact mem_cons_self
        · rcases mem_cons.mp h with rfl | h
          · exact mem_cons_self
          · exact mem_cons_of_mem _ (ih h)

/-- The numbers that are written for a function. -/
structure ProfTiming.Numbers (P : ℚ → Prop) (t : ProfTiming) : Prop where
  total : ∀ d, t.total_us = .finite d → P d
  max : P t.max_us
  p99 : P (prof_timing_p99 t)

section

variable {depth : Nat} {P : ℚ → Prop} (hP : ∀ n, P (sizeToDouble n))
include hP

theorem wellFormed_names (n : List ProfName) (hroot : WellFormed P (depth + 4) (.object root))
    (hkey : 0 ∉ key) : WellFormed P (depth + 4) (.object (names_to_json n root key)) := by
  refine hroot.set_value hkey (.array fun v hv => ?_)
  obtain ⟨e, -, rfl⟩ := mem_map.mp hv
  exact (wellFormed_set_string (by decide) (wellFormed_empty _) e.name).set_number (by decide) (hP _)

theorem wellFormed_access (a : ProfAccess) : WellFormed P (depth + 2) (access_to_json a) := by
  have hpath := wellFormed_set_string (P := P) (by decide : 0 ∉ bytes "path") (wellFormed_empty (depth + 1)) a.path
  have hclass := wellFormed_set_string (by decide : 0 ∉ bytes "class") hpath (access_class a)
  exact hclass.set_number (by decide) (hP _)

omit hP in
theorem wellFormed_set_total (ho : WellFormed P (depth + 2) (.object o))
    (hname : 0 ∉ name) {t : Total} (ht : ∀ d, t = .finite d → P d) :
    WellFormed P (depth + 2) (.object (set_total o name t)) := by
  cases t with
  | finite d => exact ho.set_number hname (ht d rfl)
  | infinite negative => exact ho

theorem wellFormed_timing (ht : t.Numbers P) : WellFormed P (depth + 2) (timing_to_json t) := by
  have hfunc := wellFormed_set_string (P := P) (by decide : 0 ∉ bytes "func") (wellFormed_empty (depth + 1)) t.func
  have hcalls := hfunc.set_number (by decide : 0 ∉ bytes "calls") (hP t.calls)
  have htotal := wellFormed_set_total hcalls (by decide : 0 ∉ bytes "total_us") ht.total
  have hmax := htotal.set_number (by decide : 0 ∉ bytes "max_us") ht.max
  exact hmax.set_number (by decide) ht.p99

theorem wellFormed_profile (p : Profile) (ht : ∀ t ∈ top_timings 20 timings, t.Numbers P) :
    WellFormed P (depth + 4) (.object (prof_to_json p timings)) := by
  have hentries := (wellFormed_empty (P := P) (depth + 3)).set_number
      (by decide : 0 ∉ bytes "entries") (hP p.entries)
  have hfunctions := wellFormed_names hP p.functions hentries (by decide : 0 ∉ bytes "functions")
  have henv := wellFormed_names hP p.env hfunctions (by decide : 0 ∉ bytes "env")
  have hnet := wellFormed_names hP p.net henv (by decide : 0 ∉ bytes "net")
  have haccesses : WellFormed P (depth + 3) (.array (p.accesses.map access_to_json)) := by
    refine .array fun v hv => ?_
    obtain ⟨a, -, rfl⟩ := mem_map.mp hv
    exact wellFormed_access hP a
  have hroot := hnet.set_value (by decide : 0 ∉ bytes "accesses") haccesses
  unfold prof_to_json
  dsimp only
  split_ifs
  · exact hroot
  · refine hroot.set_value (by decide) (.array fun v hv => ?_)
    obtain ⟨t, hmem, rfl⟩ := mem_map.mp hv
    exact wellFormed_timing hP (ht t hmem)

omit hP in
theorem wellFormed_coverage (have_kernel : Bool) :
    WellFormed P (depth + 4) (.object (coverage_to_json have_kernel)) :=
  wellFormed_set_string (by decide) (wellFormed_set_string (by decide) (wellFormed_empty _) _) _

def RiskItem (v : JsonValue) : Prop :=
  ∃ ka : ProfAccess, v = .object (json_object_set_number (json_object_set_string [] (bytes "path") ka.path)
    (bytes "hits") (sizeToDouble ka.hits))

omit hP in
theorem riskItem_of_mem : ∀ v ∈ (delta_compute libc kernel).risk_arr, RiskItem v := by
  have hfold : ∀ (kas : List ProfAccess) (d : Delta), (∀ v ∈ d.risk_arr, RiskItem v) →
      ∀ v ∈ (kas.foldl (delta_step libc) d).risk_arr, RiskItem v := by
    intro kas
    induction kas with
    | nil => exact fun d h => h
    | cons ka kas ih =>
      intro d h
      refine ih _ ?_
      unfold delta_step
      split_ifs
      · exact h
      · intro v hv
        rcases mem_append.mp hv with hv | hv
        · exact h v hv
        · exact ⟨ka, mem_singleton.mp hv⟩
  exact hfold _ _ (by simp)

theorem wellFormed_risk (libc kernel : Profile) :
    WellFormed P (depth + 4) (.object (risk_to_json (delta_compute libc kernel))) := by
  have hagreed := (wellFormed_empty (P := P) (depth + 3)).set_number (by decide : 0 ∉ bytes "agreed")
    (hP (delta_compute libc kernel).agreed)
  have hlibc := hagreed.set_number (by decide : 0 ∉ bytes "libc_only") (hP (delta_compute libc kernel).libc_only)
  have hkernel := hlibc.set_number (by decide : 0 ∉ bytes "kernel_only")
      (hP (delta_compute libc kernel).kernel_only)
  refine WellFormed.set_value (wellFormed_set_string (by decide) hkernel _) (by decide) (.array fun v hv => ?_)
  obtain ⟨ka, rfl⟩ := riskItem_of_mem v hv
  exact (wellFormed_set_string (by decide) (wellFormed_empty _) ka.path).set_number (by decide) (hP _)

theorem wellFormed_capability (hroot : WellFormed P (depth + 5) (.object root)) (c : ProfCapability) :
    WellFormed P (depth + 5) (.object (capability_to_json root c)) := by
  have hgadgets := (wellFormed_empty (P := P) (depth + 3)).set_number (by decide : 0 ∉ bytes "raw_syscall_gadgets")
    (hP c.syscall_gadgets)
  have himports := hgadgets.set_number (by decide : 0 ∉ bytes "ntdll_imports") (hP c.ntdll_imports)
  exact hroot.set_value (by decide) (himports.set_value (by decide) (wellFormed_strings _ (depth + 1)))

theorem wellFormed_document (libc : Profile) {timings : List ProfTiming}
    (ht : ∀ t ∈ top_timings 20 timings, t.Numbers P) (kernel : Option Profile) (cap : Option ProfCapability) :
    WellFormed P (depth + 5) (.object (profile_document libc timings kernel cap)) := by
  have hprofile := (wellFormed_empty (depth + 4)).set_value (by decide : 0 ∉ bytes "profile")
    (wellFormed_profile hP libc ht)
  have hcoverage := hprofile.set_value (by decide : 0 ∉ bytes "coverage") (wellFormed_coverage kernel.isSome)
  unfold profile_document
  cases kernel with
  | none =>
    cases cap with
    | none => exact hcoverage
    | some cap => exact wellFormed_capability hP hcoverage cap
  | some kernel =>
    have hrisk := hcoverage.set_value (by decide : 0 ∉ bytes "risk") (wellFormed_risk hP libc kernel)
    cases cap with
    | none => exact hrisk
    | some cap => exact wellFormed_capability hP hrisk cap

end

theorem notSubnormal_of_timing (h : allNumbers notSubnormal (timing_to_json t) = true) : t.NotSubnormal := by
  refine ⟨fun d hd => ?_, ?_, ?_⟩
  · refine allNumbers_of_get_value (k := bytes "total_us") (v := .number d) h ?_
    rw [json_object_get_value, Option.bind_some, json_object_set_number, lookup_set_value_of_ne _ (by decide),
      json_object_set_number, lookup_set_value_of_ne _ (by decide), hd, set_total, json_object_set_number,
      lookup_set_value]
  · refine allNumbers_of_get_value (k := bytes "max_us") (v := .number t.max_us) h ?_
    rw [json_object_get_value, Option.bind_some, json_object_set_number, lookup_set_value_of_ne _ (by decide),
      json_object_set_number, lookup_set_value]
  · refine allNumbers_of_get_value (k := bytes "p99_us") (v := .number (prof_timing_p99 t)) h ?_
    rw [json_object_get_value, Option.bind_some, json_object_set_number, lookup_set_value]

section

variable (libc : Profile) (timings : List ProfTiming) (kernel : Option Profile) (cap : Option ProfCapability)

theorem get_profile : json_object_get_value (some (profile_document libc timings kernel cap)) (bytes "profile") =
    some (.object (prof_to_json libc timings)) := by
  cases kernel <;> cases cap <;> rfl

theorem get_coverage : json_object_get_value (some (profile_document libc timings kernel cap)) (bytes "coverage") =
    some (.object (coverage_to_json kernel.isSome)) := by
  cases kernel <;> cases cap <;> rfl

theorem get_risk : json_object_get_value (some (profile_document libc timings kernel cap)) (bytes "risk") =
    kernel.map fun kernel => .object (risk_to_json (delta_compute libc kernel)) := by
  cases kernel <;> cases cap <;> rfl

theorem allNumbers_document_iff :
    allNumbers notSubnormal (.object (profile_document libc timings kernel cap)) = true ↔
      ∀ t ∈ top_timings 20 timings, t.NotSubnormal := by
  constructor
  · intro h t ht
    have hprofile := allNumbers_of_get_value h (get_profile libc timings kernel cap)
    unfold prof_to_json at hprofile
    dsimp only at hprofile
    split_ifs at hprofile with htimings
    · simp [htimings, top_timings] at ht
    · have harr := allNumbers_of_get_value (k := bytes "timings") hprofile (by
        rw [json_object_get_value, Option.bind_some, lookup_set_value])
      rw [allNumbers, allNumbersItems_iff] at harr
      exact notSubnormal_of_timing (harr _ (mem_map_of_mem ht))
  · intro h
    have hnumbers : ∀ t ∈ top_timings 20 timings, t.Numbers (notSubnormal · = true) := fun t ht =>
      ⟨(h t ht).1, (h t ht).2.1, (h t ht).2.2⟩
    exact (@wellFormed_document 0 _ notSubnormal_sizeToDouble libc _ hnumbers kernel cap).allNumbers

end

theorem require_eq_nil : require ok text = [] ↔ ok = true := by
  cases ok <;> simp [require]

theorem check_items_eq_nil {good : JsonObject → Prop} (hcheck : ∀ path o, check path o = [] ↔ good o) :
    check_items key check arr = [] ↔ ∀ item ∈ arr, ∃ o, json_value_get_object item = some o ∧ good o := by
  unfold check_items
  generalize 0 = start
  induction arr generalizing start with
  | nil => simp
  | cons item arr ih =>
    rw [zipIdx_cons, flatMap_cons, append_eq_nil_iff, ih, forall_mem_cons]
    cases hobj : json_value_get_object item with
    | none => simp [hobj]
    | some o => simp [hobj, hcheck]

theorem get_set_string (hs : Text s) (o : JsonObject) (name : Bytes) :
    json_object_set_string o name s = json_object_set_value o name (.string s) := by
  rw [json_object_set_string, json_value_init_string, cstr_eq_self hs.nul, if_pos hs.utf8]

theorem number_from_set : number_from least (json_object_set_number o name d) name = decide (least ≤ d) := by
  simp [number_from, json_object_get_value, json_object_get_number, json_object_set_number]

theorem number_from_set_size : number_from 0 (json_object_set_number o name (sizeToDouble n)) name = true := by
  rw [number_from_set]
  exact decide_eq_true (sizeToDouble_nonneg n)

theorem number_from_set_of_ne (h : name' ≠ name) :
    number_from least (json_object_set_value o name v) name' = number_from least o name' := by
  have hget : json_object_get_value (some (json_object_set_value o name v)) name' =
      json_object_get_value (some o) name' := by
    simp [json_object_get_value, lookup_set_value_of_ne v h]
  rw [number_from, number_from, json_object_get_number, json_object_get_number, hget]

theorem get_string_set_of_ne (v : JsonValue) (h : name' ≠ name) :
    json_object_get_string (some (json_object_set_value o name v)) name' =
      json_object_get_string (some o) name' := by
  simp [json_object_get_string, json_object_get_value, lookup_set_value_of_ne v h]

theorem get_string_set (o : JsonObject) (name s : Bytes) :
    json_object_get_string (some (json_object_set_value o name (.string s))) name = some s := by
  simp [json_object_get_string, json_object_get_value]

theorem check_name_count_eq_nil (path : Bytes) (o : JsonObject) : check_name_count path o = [] ↔
    nonempty_string o (bytes "name") = true ∧ number_from 1 o (bytes "count") = true := by
  rw [check_name_count, append_eq_nil_iff, require_eq_nil, require_eq_nil]

theorem name_passes_iff (hnul : 0 ∉ e.name) (hne : e.name ≠ []) (hcount : 1 ≤ sizeToDouble e.count) :
    (∃ o, json_value_get_object (name_to_json e) = some o ∧ nonempty_string o (bytes "name") = true ∧
      number_from 1 o (bytes "count") = true) ↔ is_valid_utf8 e.name = true := by
  have hnumber : number_from 1
      (json_object_set_number (json_object_set_string [] (bytes "name") e.name) (bytes "count")
      (sizeToDouble e.count)) (bytes "count") = true := by
    rw [number_from_set]
    exact decide_eq_true hcount
  rw [name_to_json, json_value_get_object]
  simp only [Option.some.injEq, exists_eq_left', hnumber, and_true]
  rw [json_object_set_number, nonempty_string, get_string_set_of_ne _ (by decide), json_object_set_string,
    json_value_init_string, cstr_eq_self hnul]
  split_ifs with hvalid
  · simp [get_string_set, hne, hvalid]
  · have hnone : json_object_get_string (some []) (bytes "name") = none := rfl
    simp [hnone, hvalid]

theorem check_names_eq_nil (harr : json_object_get_array (some o) k = some (n.map name_to_json))
    (hn : Counted (fun s => 0 ∉ s ∧ s ≠ []) (2 ^ 64 - 1) n) :
    check_name_count_array o k = [] ↔ ∀ e ∈ n, is_valid_utf8 e.name = true := by
  rw [check_name_count_array, check_array, harr]
  dsimp only
  rw [check_items_eq_nil check_name_count_eq_nil, forall_mem_map]
  refine forall₂_congr fun e he => ?_
  obtain ⟨⟨hnul, hne⟩, hlo, hhi⟩ := hn e he
  exact name_passes_iff hnul hne (one_le_sizeToDouble hlo hhi)

theorem check_access_eq_nil (path : Bytes) (o : JsonObject) : check_access path o = [] ↔
    nonempty_string o (bytes "path") = true ∧ string_in classes o (bytes "class") = true ∧
      number_from 1 o (bytes "hits") = true := by
  rw [check_access, append_eq_nil_iff, append_eq_nil_iff, require_eq_nil, require_eq_nil,
    require_eq_nil, and_assoc]

theorem access_class_mem : access_class a ∈ classes ∧ Text (access_class a) := by
  have hall : ∀ c ∈ classes, ∀ x ∈ c, x < 0x80 ∧ x ≠ 0 := by decide
  have hmem : access_class a ∈ classes := by
    unfold access_class
    split_ifs <;> simp [classes]
  exact ⟨hmem, text_of_ascii (hall _ hmem)⟩

theorem access_passes (hpath : Text a.path) (hne : a.path ≠ []) (hhits : 1 ≤ sizeToDouble a.hits) :
    ∃ o, json_value_get_object (access_to_json a) = some o ∧ nonempty_string o (bytes "path") = true ∧
      string_in classes o (bytes "class") = true ∧ number_from 1 o (bytes "hits") = true := by
  obtain ⟨hmem, hclass⟩ := access_class_mem
  refine ⟨_, rfl, ?_, ?_, ?_⟩
  · rw [nonempty_string, json_object_set_number, get_string_set_of_ne _ (by decide), get_set_string hclass,
      get_string_set_of_ne _ (by decide), get_set_string hpath, get_string_set]
    simp [hne]
  · rw [string_in, json_object_set_number, get_string_set_of_ne _ (by decide),
      get_set_string hclass, get_string_set]
    simp [hmem]
  · rw [number_from_set]
    exact decide_eq_true hhits

section

variable (timings : List ProfTiming) (kernel : Option Profile) (cap : Option ProfCapability)

theorem get_array_of_value
    (h : json_object_get_value (some o) name = some (.array a)) :
    json_object_get_array (some o) name = some a := by
  rw [json_object_get_array, h]

theorem get_object_of_value
    (h : json_object_get_value (some o) name = some (.object o')) :
    json_object_get_object (some o) name = some o' := by
  rw [json_object_get_object, h]
  rfl

theorem check_profile_iff (h : Sound (2 ^ 64 - 1) libc) :
    check_profile (profile_document libc timings kernel cap) = [] ↔
      ∀ e ∈ libc.net, is_valid_utf8 e.name = true := by
  have hweak : ∀ {n}, Counted (fun s => Text s ∧ s ≠ []) (2 ^ 64 - 1) n →
      Counted (fun s => 0 ∉ s ∧ s ≠ []) (2 ^ 64 - 1) n :=
    fun hn e he => ⟨⟨(hn e he).1.1.nul, (hn e he).1.2⟩, (hn e he).2⟩
  have hfunctions : check_name_count_array (prof_to_json libc timings) (bytes "functions") = [] :=
    (check_names_eq_nil (get_array_of_value (by unfold prof_to_json; dsimp only; split_ifs <;> rfl))
      (hweak h.functions)).mpr fun e he => (h.functions e he).1.1.utf8
  have henv : check_name_count_array (prof_to_json libc timings) (bytes "env") = [] :=
    (check_names_eq_nil (get_array_of_value (by unfold prof_to_json; dsimp only; split_ifs <;> rfl))
      (hweak h.env)).mpr fun e he => (h.env e he).1.1.utf8
  have hnet := check_names_eq_nil (o := prof_to_json libc timings) (k := bytes "net")
    (get_array_of_value (by unfold prof_to_json; dsimp only; split_ifs <;> rfl)) h.net
  have haccesses : check_array (bytes "accesses") check_access (prof_to_json libc timings) = [] := by
    have harr : json_object_get_array (some (prof_to_json libc timings)) (bytes "accesses") =
        some (libc.accesses.map access_to_json) :=
      get_array_of_value (by unfold prof_to_json; dsimp only; split_ifs <;> rfl)
    rw [check_array, harr]
    dsimp only
    rw [check_items_eq_nil check_access_eq_nil, forall_mem_map]
    intro a ha
    obtain ⟨⟨hpath, hne⟩, hlo, hhi⟩ := h.accesses a ha
    exact access_passes hpath hne (one_le_sizeToDouble hlo hhi)
  have hentries : number_from 0 (prof_to_json libc timings) (bytes "entries") = true := by
    have hget : json_object_get_value (some (prof_to_json libc timings)) (bytes "entries") =
        some (.number (sizeToDouble libc.entries)) := by
      unfold prof_to_json
      dsimp only
      split_ifs <;> rfl
    rw [number_from, json_object_get_number, hget]
    simpa using sizeToDouble_nonneg libc.entries
  rw [check_profile, get_object_of_value (get_profile libc timings kernel cap)]
  simp only [hentries, require, if_true, hfunctions, henv, haccesses, nil_append, append_nil]
  exact hnet

theorem check_coverage_eq : check_coverage (profile_document libc timings kernel cap) = ([], kernel.isSome) := by
  rw [check_coverage, get_object_of_value (get_coverage libc timings kernel cap)]
  cases kernel.isSome <;> decide

theorem check_risk_eq : check_risk (profile_document libc timings kernel cap) kernel.isSome = [] := by
  rw [check_risk, get_risk]
  cases hk : kernel with
  | none => rfl
  | some k =>
    have hget := get_risk libc timings kernel cap
    rw [hk] at hget
    have htext : Text (if 0 < (delta_compute libc k).kernel_only then bytes "SUBLIBC_ACCESS_FOUND"
        else bytes "clean") := by
      split_ifs <;> exact text_of_ascii (by decide)
    have hverdict : string_in verdicts (risk_to_json (delta_compute libc k)) (bytes "verdict") = true := by
      rw [risk_to_json, get_set_string htext, string_in, get_string_set_of_ne _ (by decide), get_string_set]
      split_ifs <;> simp [verdicts]
    have hnumbers : ∀ name ∈ [bytes "agreed", bytes "libc_only", bytes "kernel_only"],
        number_from 0 (risk_to_json (delta_compute libc k)) name = true := by
      rw [risk_to_json, get_set_string htext]
      intro name hname
      simp only [mem_cons, not_mem_nil, or_false] at hname
      rcases hname with rfl | rfl | rfl
      · rw [number_from_set_of_ne (by decide), number_from_set_of_ne (by decide), json_object_set_number,
          number_from_set_of_ne (by decide), json_object_set_number, number_from_set_of_ne (by decide)]
        exact number_from_set_size
      · rw [number_from_set_of_ne (by decide), number_from_set_of_ne (by decide), json_object_set_number,
          number_from_set_of_ne (by decide)]
        exact number_from_set_size
      · rw [number_from_set_of_ne (by decide), number_from_set_of_ne (by decide)]
        exact number_from_set_size
    rw [get_object_of_value hget]
    simp [require, hverdict, hnumbers]

def capability_object (c : ProfCapability) : JsonObject :=
  json_object_set_value
    (json_object_set_number
      (json_object_set_number [] (bytes "raw_syscall_gadgets") (sizeToDouble c.syscall_gadgets))
      (bytes "ntdll_imports") (sizeToDouble c.ntdll_imports))
    (bytes "ntdll_names")
    (.array ((((List.finRange 16).take c.ntdll_imports).map c.ntdll_names).foldl json_array_append_string []))

theorem check_capability_eq : check_capability (profile_document libc timings kernel cap) = [] := by
  have hget : json_object_get_value (some (profile_document libc timings kernel cap)) (bytes "static_capability") =
      cap.map fun c => .object (capability_object c) := by
    cases kernel <;> cases cap <;> rfl
  cases hcap : cap with
  | none =>
    rw [hcap] at hget
    rw [check_capability, hget]
    rfl
  | some c =>
    have hgadgets : number_from 0 (capability_object c) (bytes "raw_syscall_gadgets") = true := by
      rw [capability_object, number_from_set_of_ne (by decide), json_object_set_number,
        number_from_set_of_ne (by decide)]
      exact number_from_set_size
    have himports : number_from 0 (capability_object c) (bytes "ntdll_imports") = true := by
      rw [capability_object, number_from_set_of_ne (by decide)]
      exact number_from_set_size
    rw [hcap] at hget
    rw [check_capability, get_object_of_value hget, hget]
    simp [require, hgadgets, himports]

theorem document_violations_iff (h : Sound (2 ^ 64 - 1) libc) :
    document_violations (profile_document libc timings kernel cap) = [] ↔
      ∀ e ∈ libc.net, is_valid_utf8 e.name = true := by
  rw [document_violations, check_coverage_eq]
  dsimp only
  rw [check_risk_eq, check_capability_eq, append_nil, append_nil, append_nil,
    check_profile_iff timings kernel cap h]

end

theorem validate_eq_zero_iff {libc : Bytes} (h : TraceFile libc) :
    (prof_validate_file (profile_text libc kernel cap) errsz).1 = 0 ↔
      (∀ t ∈ top_timings 20 (trace_timings libc), t.NotSubnormal) ∧
        ∀ e ∈ (scan_profile libc).prof.net, is_valid_utf8 e.name = true := by
  have hnumbers : ∀ t ∈ top_timings 20 (trace_timings libc), t.Numbers IsDouble := fun t ht =>
    have h := trace_timings_doubles t (mem_of_mem_top ht)
    ⟨h.total, h.max, h.p99⟩
  have hwf := @wellFormed_document 2044 _ isDouble_sizeToDouble (scan_profile libc).prof _ hnumbers
    (kernel.map fun text => (scan_profile text).prof) cap
  have hparse := json_parse_pretty hwf (numberEnds_newline [])
  have hviolations := document_violations_iff (trace_timings libc)
      (kernel.map fun text => (scan_profile text).prof) cap
    h.sound
  have hcstr : cstr (profile_text libc kernel cap) = profile_text libc kernel cap := by
    refine cstr_eq_self ?_
    simp only [profile_text, json_serialize_to_string_pretty, mem_append, not_or]
    exact ⟨spelling_pretty.not_mem_zero 0 _, by decide⟩
  rw [prof_validate_file, hcstr, profile_text, hparse]
  by_cases hnum : allNumbers notSubnormal (.object (profile_document (scan_profile libc).prof (trace_timings libc)
      (kernel.map fun text => (scan_profile text).prof) cap)) = true
  · have htimings := (allNumbers_document_iff _ _ _ _).mp hnum
    rw [if_pos hnum]
    simp only [json_value_get_object, Nat.cast_eq_zero, length_eq_zero_iff, hviolations]
    exact ⟨fun hnet => ⟨htimings, hnet⟩, And.right⟩
  · rw [if_neg hnum]
    refine iff_of_false (by simp) fun hboth => hnum ((allNumbers_document_iff _ _ _ _).mpr hboth.1)

def field (msg : JsonObject) (name : Bytes) : Bytes := (json_object_get_string (some msg) name).getD []

theorem host_and_port_eq_some : host_and_port entry = some name ↔
    ∃ msg, call_of entry = some msg ∧ field msg (bytes "addr") = [] ∧ field msg (bytes "host") ≠ [] ∧
      name = if field msg (bytes "port") ≠ [] then field msg (bytes "host") ++ bytes ":" ++
        field msg (bytes "port")
        else field msg (bytes "host") := by
  unfold host_and_port call_of field
  cases json_object_get_object entry (bytes "message") with
  | none => simp
  | some msg =>
    by_cases hcall : is_call msg = true
    · simp only [hcall, true_and, Option.filter_some, if_true, Option.some.injEq, exists_eq_left']
      constructor
      · intro hname
        split_ifs at hname with hc hport
        · exact ⟨hc.1, hc.2, by rw [if_pos hport]; exact (Option.some.inj hname).symm⟩
        · exact ⟨hc.1, hc.2, by rw [if_neg hport]; exact (Option.some.inj hname).symm⟩
      · rintro ⟨haddr, hhost, rfl⟩
        rw [if_pos ⟨haddr, hhost⟩]
    · simp [hcall, Option.filter_some]

theorem net_name_eq : net_name msg =
    if field msg (bytes "addr") ≠ [] then field msg (bytes "addr")
    else if field msg (bytes "host") ≠ [] then
      snprintf 256 (if field msg (bytes "port") ≠ [] then
        field msg (bytes "host") ++ bytes ":" ++ field msg (bytes "port") else field msg (bytes "host"))
    else [] := rfl

theorem net_utf8_iff (h : TraceFile libc) : (∀ e ∈ (scan_profile libc).prof.net, is_valid_utf8 e.name = true) ↔
      ∀ entry ∈ trace_entries libc, ∀ name, host_and_port entry = some name →
        is_valid_utf8 (snprintf 256 name) = true := by
  have hnames : (∀ e ∈ (scan_profile libc).prof.net, is_valid_utf8 e.name = true) ↔
      ∀ name, (∃ e ∈ (scan_profile libc).prof.net, e.name = name) → is_valid_utf8 name = true := by
    constructor
    · rintro hall name ⟨e, he, rfl⟩
      exact hall e he
    · exact fun hall e he => hall e.name ⟨e, he, rfl⟩
  rw [hnames]
  simp only [mem_net_scan]
  constructor
  · intro hall entry hentry name hname
    obtain ⟨msg, hmsg, haddr, hhost, heq⟩ := host_and_port_eq_some.mp hname
    have hcut : net_name msg = snprintf 256 name := by
      rw [net_name_eq, if_neg (not_not.mpr haddr), if_pos hhost, heq]
    rw [← hcut]
    by_cases hne : net_name msg = []
    · rw [hne]
      rfl
    · exact hall _ ⟨entry, hentry, msg, hmsg, rfl, hne⟩
  · rintro hall name ⟨entry, hentry, msg, hmsg, rfl, hne⟩
    by_cases haddr : field msg (bytes "addr") = []
    · by_cases hhost : field msg (bytes "host") = []
      · rw [net_name_eq, if_neg (not_not.mpr haddr), if_neg (not_not.mpr hhost)]
        rfl
      · have hcut := hall entry hentry _ (host_and_port_eq_some.mpr ⟨msg, hmsg, haddr, hhost, rfl⟩)
        rwa [net_name_eq, if_neg (not_not.mpr haddr), if_pos hhost]
    · rw [net_name_eq, if_pos haddr]
      cases entry with
      | none => cases hmsg
      | some o =>
        obtain ⟨hmem, -⟩ := call_of_eq_some hmsg
        refine (text_getD (fun s hs => h.texts _ hentry o rfl s ?_) _).utf8
        exact mem_strings_members.mpr ⟨_, hmem, hs⟩

/-- The profiler's document is accepted by its validator exactly when no address is cut inside of a
character and no duration that is written is subnormal. -/
theorem profile_validates_iff {libc : Bytes} (h : TraceFile libc) (kernel : Option Bytes)
    (cap : Option ProfCapability) (errsz : Nat) :
    (prof_validate_file (profile_text libc kernel cap) errsz).1 = 0 ↔
      (∀ entry ∈ trace_entries libc, ∀ name, host_and_port entry = some name →
        is_valid_utf8 (snprintf 256 name) = true) ∧
      ∀ t ∈ top_timings 20 (trace_timings libc), t.NotSubnormal := by
  rw [validate_eq_zero_iff h, net_utf8_iff h, and_comm]

/-- A trace with one call that connects to a host of `n` ASCII characters and one that is not. -/
def hostTrace (n : Nat) : Bytes :=
  bytes "\x7b\"message\":\x7b\"func\":\"getaddrinfo\",\"host\":\"" ++ List.replicate n 97 ++ [0xC3, 0xA9] ++
    bytes "\"\x7d\x7d\n"

theorem hostTrace_file (htrace : json_object_get_object
    ((json_parse_string_with_comments (cstr (hostTrace n))).bind json_value_get_object) (bytes "profile") = none)
    (hsize : (hostTrace n).length < 2 ^ 63)
    (hutf8 : ((trace_entries (hostTrace n)).all fun entry => entry.all fun o => utf8_strings (.object o)) = true) :
    TraceFile (hostTrace n) where
  trace := htrace
  size := hsize
  utf8 := fun o ho => by
    rw [all_eq_true] at hutf8
    exact hutf8 _ ho

theorem hostTrace_254 : TraceFile (hostTrace 254) :=
  hostTrace_file (by decide +kernel) (by decide +kernel) (by decide +kernel)

theorem profile_validates_short : TraceFile (hostTrace 8) ∧
    (prof_validate_file (profile_text (hostTrace 8) none none) 2048).1 = 0 := by
  have h : TraceFile (hostTrace 8) := hostTrace_file (by decide +kernel) (by decide) (by decide +kernel)
  refine ⟨h, (profile_validates_iff h none none 2048).mpr ⟨?_, ?_⟩⟩
  · have hall : ((trace_entries (hostTrace 8)).all fun entry => (host_and_port entry).all fun name =>
        is_valid_utf8 (snprintf 256 name)) = true := by decide +kernel
    intro entry hentry name hname
    rw [all_eq_true] at hall
    have := hall entry hentry
    rwa [hname] at this
  · have hnone : trace_timings (hostTrace 8) = [] := by decide +kernel
    rw [hnone]
    simp [top_timings]

/-- The address of 256 bytes is cut in the middle of its last character: the item has no name. -/
theorem not_profile_validates : ¬ ∀ libc, TraceFile libc → ∀ kernel cap errsz,
    (prof_validate_file (profile_text libc kernel cap) errsz).1 = 0 := by
  intro h
  have hnet := ((validate_eq_zero_iff hostTrace_254).mp (h _ hostTrace_254 none none 2048)).2
  have hbad : ((scan_profile (hostTrace 254)).prof.net.all fun e => is_valid_utf8 e.name) =
      false := by decide +kernel
  rw [← all_eq_true, hbad] at hnet
  cases hnet

end Retrace.Profiler
