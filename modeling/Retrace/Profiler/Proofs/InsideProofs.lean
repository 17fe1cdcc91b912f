import Retrace.Profiler.Inside
import Retrace.Profiler.Proofs.ScanProofs
import Retrace.Json.Equality

/-!
# What the grading reports

The declared set is read as a trace. A document of the form that the converters write is one object
without a message, so nothing is added to the profile it is compared with, and every observed path is
reported.
-/

namespace Retrace.Profiler

open CLib Parson

variable {text : Bytes} {profile root : JsonObject}

theorem lbrace_not_mem_of_isspace {t : Bytes} (ht : t.all isspace = true) : lbrace ∉ t := by
  intro h
  have := List.all_eq_true.mp ht lbrace h
  exact absurd this (by decide)

theorem scan_loop_document (h : ObjectDocument text root) :
    ∃ body, scan_loop {} text = [body] ∧ 0 ∉ body ∧ body.head? = some lbrace ∧
      parse_value (MAX_NESTING + 1) body = some (.object root, []) := by
  obtain ⟨before, body, behind, rfl, hbefore, hbehind, hnul, hhead, hparse⟩ := h
  refine ⟨body, ?_, hnul, hhead, hparse⟩
  rw [List.append_assoc]
  have hfront := @scan_loop_outside before [] (body ++ behind) (lbrace_not_mem_of_isspace hbefore)
  have hback := @scan_loop_outside behind body [] (lbrace_not_mem_of_isspace hbehind)
  rw [List.append_nil] at hback
  calc scan_loop {} (before ++ (body ++ behind))
      = scan_loop {} (body ++ behind) := hfront
    _ = body :: scan_loop ⟨0, false, false, body⟩ behind := scan_loop_object hhead hparse
    _ = [body] := by rw [hback]; rfl

theorem corr_stream_scan_document (h : ObjectDocument text root) : corr_stream_scan text = ([some root], 0) := by
  obtain ⟨body, hscan, hnul, hhead, hparse⟩ := scan_loop_document h
  have hbody : json_parse_string (cstr body) = some (.object root) := by
    rw [cstr_eq_self hnul]
    exact json_parse_object hhead hparse
  simp [corr_stream_scan, hscan, hbody, json_value_get_object]

theorem scan_profile_accesses (h : DeclaredSet text profile) : (scan_profile text).prof.accesses = [] := by
  obtain ⟨root, hdoc, -, hmsg⟩ := h
  simp [scan_profile, corr_stream_scan_document hdoc, prof_add_entry, hmsg, prof_finish]

theorem prof_access_get_nil {p : Profile} (h : p.accesses = []) (path : Bytes) :
    prof_access_get p path = none := by
  simp [prof_access_get, h, bsearch, bsearch_loop]

theorem violations_declared (h : DeclaredSet text profile)
    (libc : Profile) : violations libc (scan_profile text).prof = libc.accesses := by
  rw [violations, List.filter_eq_self]
  intro a _
  simp [prof_access_get_nil (scan_profile_accesses h)]

/-- The grading against a declared set reports the paths that are not granted, and no others, exactly
when no observed path is granted. -/
theorem grade_inside_iff {fs : FS} {libc_path inside_path : Path} {libc : ProfFeed} {text : Bytes}
    {profile : JsonObject} (hlibc : load_any fs libc_path = some libc) (hfs : fs inside_path = some text)
    (hset : DeclaredSet text profile) :
    (∃ vs, grade_inside fs libc_path inside_path = some vs ∧
      ∀ a ∈ libc.prof.accesses, a ∈ vs ↔ ¬ Granted (declared_paths profile) a.path) ↔
    ∀ a ∈ libc.prof.accesses, ¬ Granted (declared_paths profile) a.path := by
  have hvs : grade_inside fs libc_path inside_path = some libc.prof.accesses := by
    have := violations_declared hset libc.prof
    simp [grade_inside, hlibc, load_profile, hfs, this]
  constructor
  · rintro ⟨vs, hgrade, hiff⟩ a ha
    rw [hvs, Option.some.injEq] at hgrade
    subst hgrade
    exact (hiff a ha).mp ha
  · intro hnone
    exact ⟨_, hvs, fun a ha => ⟨fun _ => hnone a ha, fun _ => ha⟩⟩

def etcDeclared : Bytes := bytes "\x7b\"profile\":\x7b\"accesses\":[\x7b\"path\":\"/etc/\"\x7d]\x7d\x7d"

def etcProfile : JsonObject :=
  [(bytes "accesses", .array [.object [(bytes "path", .string (bytes "/etc/"))]])]

def openTrace (path : Bytes) : Bytes :=
  bytes "\x7b\"message\":\x7b\"func\":\"open\",\"path\":\"" ++ path ++ bytes "\"\x7d\x7d\n"

def etcFiles (path : Bytes) : FS := fun p =>
  if p = bytes "trace" then some (openTrace path)
  else if p = bytes "declared" then some etcDeclared
  else none

theorem etcDeclared_declaredSet : DeclaredSet etcDeclared etcProfile := by
  refine ⟨[(bytes "profile", .object etcProfile)], ⟨[], etcDeclared, [], ?_, rfl, rfl, ?_, ?_, ?_⟩, ?_, ?_⟩
  · simp
  · decide
  · decide
  · decide +kernel
  · decide
  · decide

theorem grade_inside_tmp :
    ∃ vs, grade_inside (etcFiles (bytes "/tmp/x")) (bytes "trace") (bytes "declared") = some vs ∧
      ∀ a ∈ (scan_profile (openTrace (bytes "/tmp/x"))).prof.accesses,
        a ∈ vs ↔ ¬ Granted (declared_paths etcProfile) a.path := by
  refine (@grade_inside_iff _ _ _ (scan_profile (openTrace (bytes "/tmp/x"))) _ _ ?_ ?_
    etcDeclared_declaredSet).mpr ?_
  · decide +kernel
  · decide
  · decide +kernel

/-- A file beneath the declared directory is reported. -/
theorem not_grade_inside :
    ∃ a, grade_inside (etcFiles (bytes "/etc/hosts")) (bytes "trace") (bytes "declared") = some [a] ∧
      a.path = bytes "/etc/hosts" ∧ DeclaredSet etcDeclared etcProfile ∧
      Granted (declared_paths etcProfile) a.path := by
  refine ⟨⟨bytes "/etc/hosts", false, true, false, 1⟩, ?_, rfl, etcDeclared_declaredSet, ?_⟩
  · decide +kernel
  · decide +kernel

end Retrace.Profiler
