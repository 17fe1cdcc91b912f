import Retrace.Enforce.Spec
import Retrace.Json.Proofs.PrettyProofs
import Retrace.Json.Proofs.BuildProofs

/-!
# When a spec is carried over whole

The text of a spec is parsed back into the same document, so what gets lost is what the arrays of the reader
do not hold: items behind the last element, and the ends of long paths. A path that is not well-formed text
is lost already when its rule is built.
-/

namespace Retrace.Enforce

open CLib Parson Profiler List

@[simp]
theorem filterMap_item_string (xs : List Bytes) : (xs.map JsonValue.string).filterMap item_string = xs := by
  induction xs with
  | nil => rfl
  | cons x xs ih => simpa [item_string] using ih

theorem foldl_fill (cap : Nat) (item : JsonValue → Option α) (xs : List JsonValue) (acc : List α) :
    xs.foldl (fill_step cap item) acc = acc ++ (xs.filterMap item).take (cap - acc.length) := by
  induction xs generalizing acc with
  | nil => simp
  | cons x xs ih =>
    rw [foldl_cons, ih, fill_step]
    cases hx : item x with
    | none => simp [hx]
    | some a =>
      rw [filterMap_cons_some hx]
      by_cases hfull : cap ≤ acc.length
      · simp [hfull]
      · obtain ⟨n, hn⟩ : ∃ n, cap - acc.length = n + 1 := ⟨cap - acc.length - 1, by omega⟩
        have hrest : cap - (acc ++ [a]).length = n := by
          simp only [length_append, length_singleton]
          omega
        simp only [if_neg hfull]
        rw [hn, hrest, take_succ_cons, append_assoc]
        rfl

theorem fill_eq (item : JsonValue → Option α) : fill cap item xs = (xs.filterMap item).take cap := by
  rw [fill, foldl_fill]
  rfl

theorem take_snprintf_eq_iff (hsize : 0 < size) (xs : List Bytes) :
    (xs.map (snprintf size)).take cap = xs ↔ xs.length ≤ cap ∧ ∀ x ∈ xs, x.length < size := by
  constructor
  · intro h
    have hlen : xs.length ≤ cap := by
      have := congrArg List.length h
      simp only [length_take, length_map] at this
      omega
    refine ⟨hlen, fun x hx => ?_⟩
    rw [take_of_length_le (by simpa using hlen)] at h
    have hcut : snprintf size x = x := by
      have hmap : xs.map (snprintf size) = xs.map id := by rw [h, map_id]
      exact map_inj_left.mp hmap x hx
    have := snprintf_length_le size x
    rw [hcut] at this
    omega
  · rintro ⟨hlen, hfit⟩
    have hmap : xs.map (snprintf size) = xs := by
      rw [map_congr_left fun x hx => snprintf_eq_self (hfit x hx), map_id']
    rw [hmap, take_of_length_le hlen]

section

variable (allow_src usage_src : Profile) (exec_path : Option Bytes) (want_landlock want_seccomp want_ac : Bool)

theorem landlock_section : json_object_get_object
    (json_value_get_object (build_spec allow_src usage_src exec_path want_landlock want_seccomp want_ac))
      (bytes "landlock") =
    if want_landlock then some [(bytes "rules", .array (landlock_rules allow_src exec_path))] else none := by
  cases want_landlock <;> cases want_seccomp <;> cases want_ac <;> rfl

theorem seccomp_section : json_object_get_object
    (json_value_get_object (build_spec allow_src usage_src exec_path want_landlock want_seccomp want_ac))
      (bytes "seccomp") = if want_seccomp then some
        [(bytes "deny", .array (seccomp_deny usage_src))] else none := by
  cases want_landlock <;> cases want_seccomp <;> cases want_ac <;> rfl

theorem appcontainer_section : json_object_get_object
    (json_value_get_object (build_spec allow_src usage_src exec_path want_landlock want_seccomp want_ac))
      (bytes "appcontainer") = if want_ac then some (appcontainer allow_src exec_path) else none := by
  cases want_landlock <;> cases want_seccomp <;> cases want_ac <;> rfl

theorem container_array (write : Bool) : json_object_get_array (some (appcontainer allow_src exec_path))
      (if write then bytes "write_paths" else bytes "read_paths") =
        some ((granted_paths allow_src write).map .string) := by
  have hgranted : ∀ write, (container_paths allow_src write).foldl json_array_append_string [] =
      (granted_paths allow_src write).map .string := fun write => foldl_append_string [] _
  simp only [appcontainer, hgranted, json_object_set_string]
  split <;> cases write <;> rfl

end

section

variable (allow_src usage_src : Profile) (exec_path : Option Bytes) (depth : Nat)

theorem wellFormed_rule : WellFormed IsNormal (depth + 3) (landlock_rule path access) :=
  (wellFormed_set_string (by decide) (wellFormed_empty _) path).set_value (by decide)
    (wellFormed_strings access depth)

theorem wellFormed_landlock : WellFormed IsNormal (depth + 5)
    (.object (json_object_set_value [] (bytes "rules") (.array (landlock_rules allow_src exec_path)))) := by
  refine (wellFormed_empty _).set_value (by decide) (.array fun v hv => ?_)
  simp only [landlock_rules, mem_append, mem_map] at hv
  rcases hv with (⟨a, -, rfl⟩ | ⟨p, -, rfl⟩) | ⟨p, -, rfl⟩
  · exact wellFormed_rule depth
  · exact wellFormed_rule depth
  · exact wellFormed_rule depth

theorem wellFormed_seccomp : WellFormed IsNormal (depth + 5)
    (.object (json_object_set_value [] (bytes "deny") (.array (seccomp_deny usage_src)))) :=
  (wellFormed_empty _).set_value (by decide) (wellFormed_strings _ (depth + 2))

theorem wellFormed_appcontainer :
    WellFormed IsNormal (depth + 5) (.object (appcontainer allow_src exec_path)) := by
  have hname : WellFormed IsNormal (depth + 5)
      (.object (json_object_set_string [] (bytes "name") (container_name exec_path))) :=
    wellFormed_set_string (by decide) (wellFormed_empty _) _
  unfold appcontainer
  refine WellFormed.set_value (WellFormed.set_value hname (by decide) ?_) (by decide) ?_
  · exact wellFormed_strings _ (depth + 2)
  · exact wellFormed_strings _ (depth + 2)

theorem wellFormed_build_spec : WellFormed IsNormal (depth + 6)
    (build_spec allow_src usage_src exec_path want_landlock want_seccomp want_ac) := by
  -- A section is set, or the root stays as it is.
  have hset : ∀ {o : JsonObject} {name : Bytes} {v : JsonValue} (want : Bool), 0 ∉ name →
      WellFormed IsNormal (depth + 5) v → WellFormed IsNormal (depth + 6) (.object o) →
      WellFormed IsNormal (depth + 6) (.object (if want then json_object_set_value o name v else o)) := by
    intro o name v want hname hv ho
    split_ifs
    · exact ho.set_value hname hv
    · exact ho
  have hroot : WellFormed IsNormal (depth + 6)
      (.object (json_object_set_value [] (bytes "no_new_privs") (.boolean true))) :=
    (wellFormed_empty _).set_value (by decide) (.boolean true)
  unfold build_spec
  refine hset want_ac (by decide) (wellFormed_appcontainer allow_src exec_path depth) ?_
  refine hset want_seccomp (by decide) (wellFormed_seccomp usage_src depth) ?_
  exact hset want_landlock (by decide) (wellFormed_landlock allow_src exec_path depth) hroot

theorem parse_spec_text :
    json_parse_string (spec_text (build_spec allow_src usage_src exec_path want_landlock want_seccomp want_ac)) =
      some (build_spec allow_src usage_src exec_path want_landlock want_seccomp want_ac) :=
  json_parse_pretty_normal (wellFormed_build_spec allow_src usage_src exec_path 2043)
    (numberEnds_newline [])

end

def accessNames (write : Bool) : List Bytes :=
  [bytes "rd"] ++ (if write then [bytes "wr"] else []) ++ [bytes "x"]

def accessOf (write : Bool) : Access := ⟨true, write, true⟩

def ruleRows (allow_src : Profile) (exec_path : Option Bytes) : List (Bytes × Bool) :=
  allow_src.accesses.map (fun a => (a.path, a.class_write)) ++ g_sys_prefixes.map (·, false) ++
    exec_path.toList.map (·, false)

theorem landlock_rules_eq :
    landlock_rules allow_src exec_path =
      (ruleRows allow_src exec_path).map fun row => landlock_rule row.1 (accessNames row.2) := by
  simp only [landlock_rules, ruleRows, map_append, map_map]
  rfl

theorem landlock_rule_eq : landlock_rule path (accessNames write) = .object (
      (if is_valid_utf8 (cstr path) then [(bytes "path", .string (cstr path))] else []) ++
        [(bytes "access", .array ((accessNames write).map .string))]) := by
  have hnames : (accessNames write).foldl json_array_append_string [] = (accessNames write).map .string := by
    cases write <;> rfl
  rw [landlock_rule, hnames, json_object_set_string, json_value_init_string]
  split_ifs <;> rfl

theorem rule_item_rule : rule_item (landlock_rule path (accessNames write)) =
    if is_valid_utf8 (cstr path) then some ⟨snprintf 512 (cstr path), accessOf write⟩ else none := by
  rw [landlock_rule_eq]
  cases write <;> split_ifs <;> rfl

theorem rule_text_eq : (⟨path, accessOf write⟩ : EnforceRule).text = ⟨some path, accessNames write⟩ := by
  cases write <;> rfl

theorem parse_rules_text (rows : List (Bytes × Bool)) :
    ((fill ENFORCE_RULES_MAX rule_item (rows.map fun row => landlock_rule row.1 (accessNames row.2))).map
      EnforceRule.text) =
      (rows.filterMap fun row => if is_valid_utf8 (cstr row.1) then
        some (RuleText.mk (some (snprintf 512 (cstr row.1))) (accessNames row.2))
          else none).take ENFORCE_RULES_MAX := by
  rw [fill_eq, map_take, filterMap_map, map_filterMap]
  congr 2
  funext row
  rw [Function.comp_apply, rule_item_rule]
  split_ifs
  · rw [Option.map_some, rule_text_eq]
  · rfl

theorem spec_rules_rows (rows : List (Bytes × Bool)) :
    ((rows.map fun row => landlock_rule row.1 (accessNames row.2)).map fun r =>
      RuleText.mk (json_object_get_string (json_value_get_object r) (bytes "path"))
        (((json_object_get_array (json_value_get_object r) (bytes "access")).getD []).filterMap item_string)) =
      rows.map fun row => ⟨if is_valid_utf8 (cstr row.1) then some (cstr row.1) else none, accessNames row.2⟩ := by
  rw [map_map]
  congr 1
  funext row
  rw [Function.comp_apply, landlock_rule_eq]
  have hnames := filterMap_item_string (accessNames row.2)
  split_ifs
  · exact congrArg (RuleText.mk (some (cstr row.1))) hnames
  · exact congrArg (RuleText.mk none) hnames

theorem rules_carried_iff (rows : List (Bytes × Bool)) :
    ((rows.filterMap fun row => if is_valid_utf8 (cstr row.1) then
      some (RuleText.mk (some (snprintf 512 (cstr row.1))) (accessNames row.2)) else none).take ENFORCE_RULES_MAX =
        rows.map fun row => ⟨if is_valid_utf8 (cstr row.1) then some (cstr row.1) else none, accessNames row.2⟩) ↔
      rows.length ≤ ENFORCE_RULES_MAX ∧ ∀ row ∈ rows, is_valid_utf8 (cstr row.1) = true ∧
        (cstr row.1).length < 512 := by
  -- With well-formed paths the reader takes every row, up to the end of its array.
  have hall : (∀ row ∈ rows, is_valid_utf8 (cstr row.1) = true) →
      (rows.filterMap fun row => if is_valid_utf8 (cstr row.1) then
        some (RuleText.mk (some (snprintf 512 (cstr row.1))) (accessNames row.2)) else none) =
        rows.map fun row => RuleText.mk (some (snprintf 512 (cstr row.1))) (accessNames row.2) := by
    intro hvalid
    rw [← filterMap_eq_map]
    refine filterMap_congr fun row hrow => ?_
    rw [if_pos (hvalid row hrow)]
    rfl
  constructor
  · intro h
    have hlen := congrArg List.length h
    rw [length_take, length_map] at hlen
    have hvalid : ∀ row ∈ rows, is_valid_utf8 (cstr row.1) = true := by
      have hle := length_filterMap_le (fun row : Bytes × Bool => if is_valid_utf8 (cstr row.1) then
        some (RuleText.mk (some (snprintf 512 (cstr row.1))) (accessNames row.2)) else none) rows
      have hsome := (filterMap_length_eq_length (f := fun row : Bytes × Bool => if is_valid_utf8 (cstr row.1) then
        some (RuleText.mk (some (snprintf 512 (cstr row.1))) (accessNames row.2)) else none)).mp
          (show _ = rows.length by omega)
      intro row hrow
      by_contra hbad
      simpa [hbad] using hsome row hrow
    have hcap : rows.length ≤ ENFORCE_RULES_MAX := by
      rw [hall hvalid, length_map] at hlen
      omega
    refine ⟨hcap, fun row hrow => ⟨hvalid row hrow, ?_⟩⟩
    rw [hall hvalid, take_of_length_le (by simpa using hcap)] at h
    have hrowEq := map_inj_left.mp h row hrow
    rw [if_pos (hvalid row hrow), RuleText.mk.injEq, Option.some.injEq] at hrowEq
    have := snprintf_length_le 512 (cstr row.1)
    rw [hrowEq.1] at this
    omega
  · rintro ⟨hcap, hrows⟩
    rw [hall fun row hrow => (hrows row hrow).1, take_of_length_le (by simpa using hcap)]
    refine map_congr_left fun row hrow => ?_
    rw [if_pos (hrows row hrow).1, snprintf_eq_self (hrows row hrow).2]

theorem sys_prefixes_fit : ∀ p ∈ g_sys_prefixes, is_valid_utf8 (cstr p) = true ∧ (cstr p).length < 512 := by
  decide

theorem ruleRows_fit_iff : ((ruleRows allow_src exec_path).length ≤ ENFORCE_RULES_MAX ∧
      ∀ row ∈ ruleRows allow_src exec_path, is_valid_utf8 (cstr row.1) = true ∧ (cstr row.1).length < 512) ↔
    (declared_paths allow_src exec_path).length + g_sys_prefixes.length ≤ ENFORCE_RULES_MAX ∧
      ∀ p ∈ declared_paths allow_src exec_path, is_valid_utf8 p = true ∧ p.length < 512 := by
  have hlen : (ruleRows allow_src exec_path).length =
      (declared_paths allow_src exec_path).length + g_sys_prefixes.length := by
    simp only [ruleRows, declared_paths, length_append, length_map]
    omega
  rw [hlen]
  refine and_congr_right fun _ => ?_
  simp only [ruleRows, declared_paths, mem_append, mem_map]
  constructor
  · rintro h p (⟨a, ha, rfl⟩ | ⟨x, hx, rfl⟩)
    · exact h (a.path, a.class_write) (.inl (.inl ⟨a, ha, rfl⟩))
    · exact h (x, false) (.inr ⟨x, hx, rfl⟩)
  · rintro h row ((⟨a, ha, rfl⟩ | ⟨x, hx, rfl⟩) | ⟨x, hx, rfl⟩)
    · exact h _ (.inl ⟨a, ha, rfl⟩)
    · exact sys_prefixes_fit x hx
    · exact h _ (.inr ⟨x, hx, rfl⟩)

section

variable (allow_src usage_src : Profile) (exec_path : Option Bytes) (want_landlock want_seccomp want_ac : Bool)

def specRoot : JsonObject :=
  (json_value_get_object (build_spec allow_src usage_src exec_path want_landlock want_seccomp want_ac)).getD []

theorem get_object_build_spec :
    json_value_get_object (build_spec allow_src usage_src exec_path want_landlock want_seccomp want_ac) =
      some (specRoot allow_src usage_src exec_path want_landlock want_seccomp want_ac) := rfl

theorem rules_section_iff :
    (parse_rules (specRoot allow_src usage_src exec_path want_landlock want_seccomp want_ac)).map
      EnforceRule.text =
      spec_rules (build_spec allow_src usage_src exec_path want_landlock want_seccomp want_ac) ↔
    (want_landlock → (declared_paths allow_src exec_path).length + g_sys_prefixes.length ≤ ENFORCE_RULES_MAX ∧
      ∀ p ∈ declared_paths allow_src exec_path, is_valid_utf8 p = true ∧ p.length < 512) := by
  rw [parse_rules, spec_rules, ← get_object_build_spec, landlock_section]
  cases want_landlock with
  | false =>
    have hnone : json_object_get_array none (bytes "rules") = none := rfl
    simp only [Bool.false_eq_true, if_false, hnone, Option.getD_none, map_nil, fill_eq, filterMap_nil,
      take_nil, false_imp_iff]
  | true =>
    have hsome : json_object_get_array (some [(bytes "rules", .array (landlock_rules allow_src exec_path))])
        (bytes "rules") = some (landlock_rules allow_src exec_path) := rfl
    simp only [if_true, hsome, Option.getD_some, true_imp_iff]
    rw [landlock_rules_eq, parse_rules_text, spec_rules_rows, rules_carried_iff, ruleRows_fit_iff]

theorem deny_carried : parse_deny (specRoot allow_src usage_src exec_path want_landlock want_seccomp want_ac) =
    spec_strings (build_spec allow_src usage_src exec_path want_landlock want_seccomp want_ac) (bytes "seccomp")
      (bytes "deny") := by
  have hshort : ∀ fn ∈ g_unsafe_syscalls, (cstr fn).length < 32 := by decide
  rw [parse_deny, spec_strings, ← get_object_build_spec, seccomp_section]
  cases want_seccomp with
  | false => rfl
  | true =>
    have hsome : json_object_get_array (some [(bytes "deny", .array (seccomp_deny usage_src))]) (bytes "deny") =
        some (seccomp_deny usage_src) := rfl
    simp only [if_true, hsome, Option.getD_some, fill_eq, ← map_filterMap]
    rw [take_snprintf_eq_iff (by decide), seccomp_deny, foldl_append_string, nil_append, filterMap_item_string]
    constructor
    · calc _ ≤ _ := length_filter_le _ _
        _ = _ := length_map _
        _ ≤ g_unsafe_syscalls.length := length_filter_le _ _
        _ ≤ ENFORCE_SYSCALLS_MAX := by decide
    · intro x hx
      obtain ⟨fn, hfn, rfl⟩ := mem_map.mp (mem_of_mem_filter hx)
      exact hshort fn (mem_of_mem_filter hfn)

theorem paths_section_iff (write : Bool) :
    parse_paths (specRoot allow_src usage_src exec_path want_landlock want_seccomp want_ac)
      (if write then bytes "write_paths" else bytes "read_paths") =
    spec_strings (build_spec allow_src usage_src exec_path want_landlock want_seccomp want_ac)
      (bytes "appcontainer")
      (if write then bytes "write_paths" else bytes "read_paths") ↔
    (want_ac → (granted_paths allow_src write).length ≤ ENFORCE_AC_PATHS_MAX ∧
      ∀ p ∈ granted_paths allow_src write, p.length < 512) := by
  rw [parse_paths, spec_strings, ← get_object_build_spec, appcontainer_section]
  cases want_ac with
  | false =>
    have hnone : ∀ name, json_object_get_array none name = none := fun _ => rfl
    simp only [Bool.false_eq_true, if_false, hnone, Option.getD_none, fill_eq, filterMap_nil,
      take_nil, false_imp_iff]
  | true =>
    simp only [if_true, container_array, Option.getD_some, fill_eq, ← map_filterMap, filterMap_item_string,
      true_imp_iff]
    exact take_snprintf_eq_iff (by decide) _

theorem carried_iff : Carried (build_spec allow_src usage_src exec_path want_landlock want_seccomp want_ac) ↔
    Fits allow_src exec_path want_landlock want_ac := by
  have hrules := rules_section_iff allow_src usage_src exec_path want_landlock want_seccomp want_ac
  have hpaths := paths_section_iff allow_src usage_src exec_path want_landlock want_seccomp want_ac
  simp only [Carried, enforce_spec_parse, parse_spec_text, get_object_build_spec]
  constructor
  · rintro ⟨hr, -, hread, hwrite⟩
    refine ⟨hrules.mp hr, fun hac write => ?_⟩
    cases write with
    | false => exact (hpaths false).mp hread hac
    | true => exact (hpaths true).mp hwrite hac
  · intro h
    exact ⟨hrules.mpr h.rules, deny_carried _ _ _ _ _ _, (hpaths false).mpr fun hac => h.paths hac false,
      (hpaths true).mpr fun hac => h.paths hac true⟩

end

/-- A spec that was compiled from a profile is carried over whole, or refused, exactly when its rules and the
paths of its container fit into the arrays of the reader. -/
theorem spec_carried_iff (allow_src usage_src : Profile) (exec_path : Option Bytes)
    (want_landlock want_seccomp want_ac : Bool) :
    Carried (build_spec allow_src usage_src exec_path want_landlock want_seccomp want_ac) ↔
      Fits allow_src exec_path want_landlock want_ac :=
  carried_iff allow_src usage_src exec_path want_landlock want_seccomp want_ac

def filesProfile (n : Nat) : Profile where
  accesses := (range n).map fun i => { path := bytes "/srv/" ++ fmtNat i, class_read := true, hits := 1 }

theorem not_carried_files (hn : ENFORCE_RULES_MAX < n + g_sys_prefixes.length) :
    ¬ Carried (build_spec (filesProfile n) (filesProfile n) none true true false) := by
  have hcount : (declared_paths (filesProfile n) none).length = n := by simp [declared_paths, filesProfile]
  have hover : ¬ Fits (filesProfile n) none true false := by
    intro h
    have hlen := (h.rules rfl).1
    omega
  exact mt (carried_iff (filesProfile n) (filesProfile n) none true true false).mp hover

/-- With 504 declared paths there are 513 rules, and the reader drops the last one, `/proc/self`, without
a word. -/
theorem not_spec_carried :
    ¬ Carried (build_spec (filesProfile 504) (filesProfile 504) none true true false) :=
  not_carried_files (by decide)

end Retrace.Enforce
