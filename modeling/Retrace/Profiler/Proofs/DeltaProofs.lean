import Retrace.Profiler.Proofs.DocumentProofs

/-!
# The layer delta is set arithmetic

The accesses of a profile are sorted by path and hold no path twice, so the search of the delta decides membership,
and counting down from the number of libc accesses ends at those that the kernel trace lacks. Not every item of the
risk list names its path: the document refuses one that is not UTF-8.
-/

namespace Retrace.Profiler

open CLib Parson List

/-- The paths that the calls of a trace mention. -/
def accessPaths (entries : List (Option JsonObject)) : Finset Bytes :=
  (((callsOf entries).flatMap mentions).map Prod.fst).toFinset

def traceDelta (libc kernel : List (Option JsonObject)) : Delta :=
  delta_compute (prof_finish (libc.foldl prof_add_entry {})) (prof_finish (kernel.foldl prof_add_entry {}))

def risk_path (v : JsonValue) : Option Bytes := json_object_get_string (json_value_get_object v) (bytes "path")

/-- The delta of two traces counts the shared paths and those of one trace only, and lists those of the
kernel trace only, in order. -/
structure DeltaExact (libc kernel : List (Option JsonObject)) : Prop where
  agreed : (traceDelta libc kernel).agreed = (accessPaths libc ∩ accessPaths kernel).card
  libc_only : (traceDelta libc kernel).libc_only = (accessPaths libc \ accessPaths kernel).card
  kernel_only : (traceDelta libc kernel).kernel_only = (accessPaths kernel \ accessPaths libc).card
  risk : ∃ paths : List Bytes, Sorted id paths ∧
    (∀ path, path ∈ paths ↔ path ∈ accessPaths kernel \ accessPaths libc) ∧
    (traceDelta libc kernel).risk_arr.map risk_path = paths.map some
  verdict : json_object_get_string (some (risk_to_json (traceDelta libc kernel))) (bytes "verdict") =
    some (bytes "clean") ↔ accessPaths kernel ⊆ accessPaths libc

section

variable {kas : List ProfAccess} {S : Finset Bytes}

theorem access_get_isSome_iff (hs : Sorted ProfAccess.path p.accesses) :
    (prof_access_get p path).isSome ↔ path ∈ p.accesses.map ProfAccess.path := by
  have hprobe := @bsearch_splits _ ProfAccess.path p.accesses path hs
  rw [prof_access_get]
  cases hsearch : bsearch ProfAccess.path p.accesses path with
  | found i =>
    rw [hsearch] at hprobe
    obtain ⟨x, hx, rfl⟩ := hprobe
    simpa [hx] using ⟨x, mem_of_getElem? hx, rfl⟩
  | missing i =>
    rw [hsearch] at hprobe
    simp only [Option.isSome_none, Bool.false_eq_true, mem_map, false_iff, not_exists, not_and]
    rintro x hx rfl
    rw [← take_append_drop i p.accesses, mem_append] at hx
    rcases hx with hx | hx
    · simpa [strcmp_self] using hprobe.1 x hx
    · simpa [strcmp_self] using hprobe.2 x hx

def riskItem (ka : ProfAccess) : JsonValue :=
  .object (json_object_set_number (json_object_set_string [] (bytes "path") ka.path) (bytes "hits")
    (sizeToDouble ka.hits))

theorem risk_path_riskItem : risk_path (riskItem ka) = some ka.path ↔ Text ka.path := by
  rw [risk_path, riskItem, json_value_get_object, json_object_set_number, get_string_set_of_ne _ (by decide),
    json_object_set_string, json_value_init_string]
  constructor
  · intro h
    split_ifs at h with hutf8
    · rw [get_string_set, Option.some.injEq] at h
      exact ⟨by rwa [h] at hutf8, h ▸ not_mem_zero_cstr _⟩
    · cases h
  · intro h
    rw [cstr_eq_self h.nul, if_pos h.utf8, get_string_set]

/-- Counting down does not wrap as long as the shared accesses are no more than the counter. -/
theorem delta_fold (hS : ∀ ka ∈ kas, (prof_access_get libc ka.path).isSome ↔ ka.path ∈ S) (d : Delta)
    (hle : (kas.filter (·.path ∈ S)).length ≤ d.libc_only) (hsize : d.libc_only < 2 ^ 64) :
    kas.foldl (delta_step libc) d =
      ⟨d.agreed + (kas.filter (·.path ∈ S)).length, d.libc_only - (kas.filter (·.path ∈ S)).length,
        d.kernel_only + (kas.filter (·.path ∉ S)).length,
          d.risk_arr ++ (kas.filter (·.path ∉ S)).map riskItem⟩ := by
  induction kas generalizing d with
  | nil => simp
  | cons ka kas ih =>
    have hS' : ∀ a ∈ kas, (prof_access_get libc a.path).isSome ↔ a.path ∈ S :=
        fun a ha => hS a (mem_cons_of_mem _ ha)
    rw [foldl_cons, delta_step]
    by_cases hka : ka.path ∈ S
    · rw [filter_cons_of_pos (by simpa using hka), length_cons] at hle ⊢
      rw [filter_cons_of_neg (by simpa using hka), if_pos ((hS ka mem_cons_self).2 hka),
        show (d.libc_only + (2 ^ 64 - 1)) % 2 ^ 64 = d.libc_only - 1 by omega,
        ih hS' _ (by dsimp only; omega) (by dsimp only; omega)]
      congr 1 <;> dsimp only <;> omega
    · rw [filter_cons_of_neg (by simpa using hka)] at hle ⊢
      rw [filter_cons_of_pos (by simpa using hka), if_neg fun h => hka ((hS ka mem_cons_self).1 h),
        ih hS' _ (by exact hle) (by exact hsize)]
      congr 1
      · dsimp only [length_cons]
        omega
      · simp [riskItem]

theorem length_filter_path (hs : Sorted ProfAccess.path kas) (P : Bytes → Prop) [DecidablePred P] :
    (kas.filter (P ·.path)).length = ((kas.map ProfAccess.path).toFinset.filter P).card := by
  have hnodup : (kas.map ProfAccess.path).Nodup := by
    refine pairwise_map.2 (hs.imp fun hlt heq => ?_)
    rw [heq, strcmp_self] at hlt
    cases hlt
  have hcard := toFinset_card_of_nodup (hnodup.filter (P ·))
  rw [toFinset_filter, filter_map, length_map] at hcard
  simpa [Function.comp_def] using hcard.symm

end

theorem accesses_sorted (entries : List (Option JsonObject)) :
    Sorted ProfAccess.path (prof_finish (entries.foldl prof_add_entry {})).accesses :=
  (counts_trace entries).accesses.sorted

theorem toFinset_accesses :
    ((prof_finish (entries.foldl prof_add_entry {})).accesses.map ProfAccess.path).toFinset =
      accessPaths entries := by
  ext path
  simp only [mem_toFinset, mem_map, (counts_trace entries).accesses.mem, accessPaths]
  constructor
  · rintro ⟨a, ⟨hmem, -⟩, rfl⟩
    simpa using hmem
  · intro h
    exact ⟨accessSum _ path, ⟨by simpa [accessSum] using h, rfl⟩, rfl⟩

theorem verdict_clean_iff :
    json_object_get_string (some (risk_to_json d)) (bytes "verdict") = some (bytes "clean") ↔
      d.kernel_only = 0 := by
  have htext : Text (if 0 < d.kernel_only then bytes "SUBLIBC_ACCESS_FOUND" else bytes "clean") := by
    split_ifs <;> exact text_of_ascii (by decide)
  rw [risk_to_json, get_set_string htext, get_string_set_of_ne _ (by decide), get_string_set]
  rcases Nat.eq_zero_or_pos d.kernel_only with h | h
  · simp [h]
  · rw [if_pos h]
    exact iff_of_false (by decide) h.ne'

/-- The delta of two traces is exact just when every path of the kernel trace only is text. -/
theorem delta_exact_iff (libc kernel : List (Option JsonObject)) (hsize : (accessPaths libc).card < 2 ^ 64) :
    DeltaExact libc kernel ↔ ∀ path ∈ accessPaths kernel \ accessPaths libc, Text path := by
  set kas := (prof_finish (kernel.foldl prof_add_entry {})).accesses with hkas
  have hsorted : Sorted ProfAccess.path kas := accesses_sorted kernel
  have hK : (kas.map ProfAccess.path).toFinset = accessPaths kernel := toFinset_accesses
  have hlibc : (prof_finish (libc.foldl prof_add_entry {})).accesses.length = (accessPaths libc).card := by
    simpa [toFinset_accesses] using length_filter_path (accesses_sorted libc) fun _ => True
  have hshared : (kas.filter (·.path ∈ accessPaths libc)).length =
      (accessPaths libc ∩ accessPaths kernel).card := by
    rw [length_filter_path hsorted (· ∈ accessPaths libc), hK, Finset.filter_mem_eq_inter, Finset.inter_comm]
  have honly : (kas.filter (·.path ∉ accessPaths libc)).length = (accessPaths kernel \ accessPaths libc).card := by
    rw [length_filter_path hsorted (· ∉ accessPaths libc), hK, Finset.sdiff_eq_filter]
  have hdelta : traceDelta libc kernel = ⟨(accessPaths libc ∩ accessPaths kernel).card,
      (accessPaths libc \ accessPaths kernel).card, (accessPaths kernel \ accessPaths libc).card,
      (kas.filter (·.path ∉ accessPaths libc)).map riskItem⟩ := by
    rw [traceDelta, delta_compute, delta_fold (S := accessPaths libc), hshared, honly, hlibc,
      Finset.card_sdiff (s := accessPaths kernel), Finset.inter_comm (accessPaths kernel)]
    · simp [hkas]
    · intro ka _
      rw [access_get_isSome_iff (accesses_sorted libc), ← toFinset_accesses, mem_toFinset]
    · rw [hshared, hlibc]
      exact Finset.card_le_card Finset.inter_subset_left
    · rwa [hlibc]
  set paths := (kas.filter (·.path ∉ accessPaths libc)).map ProfAccess.path with hpaths
  have hpathsorted : Sorted id paths := pairwise_map.2 (hsorted.filter _)
  have hmem : ∀ path, path ∈ paths ↔ path ∈ accessPaths kernel \ accessPaths libc := by
    intro path
    rw [← hK]
    simp only [hpaths, mem_map, mem_filter, Finset.mem_sdiff, mem_toFinset, decide_eq_true_eq]
    grind
  constructor
  · intro h path hpath
    obtain ⟨paths', hsorted', hmem', heq⟩ := h.risk
    obtain rfl : paths' = paths := sorted_ext hsorted' hpathsorted fun path => (hmem' path).trans (hmem path).symm
    rw [hdelta, hpaths, map_map, map_map] at heq
    obtain ⟨ka, hka, rfl⟩ := mem_map.1 ((hmem path).2 hpath)
    exact risk_path_riskItem.1 (map_inj_left.1 heq ka hka)
  · intro h
    refine ⟨by rw [hdelta], by rw [hdelta], by rw [hdelta], ⟨paths, hpathsorted, hmem, ?_⟩, ?_⟩
    · rw [hdelta, hpaths, map_map, map_map]
      refine map_inj_left.2 fun ka hka => risk_path_riskItem.2 (h _ ((hmem _).1 (mem_map_of_mem hka)))
    · rw [verdict_clean_iff, hdelta, Finset.card_eq_zero, Finset.sdiff_eq_empty_iff_subset]

def openCall (path : Bytes) : List (Option JsonObject) :=
  [some [(bytes "message", .object [(bytes "func", .string (bytes "open")), (bytes "path", .string path)])]]

/-- Both traces have `/usr`, and each of them a path of its own. -/
theorem delta_exact_etc : DeltaExact (openCall (bytes "/usr") ++ openCall (bytes "/tmp"))
    (openCall (bytes "/etc") ++ openCall (bytes "/usr")) := by
  refine (delta_exact_iff _ _ (by decide)).2 fun path hpath => ?_
  have hpaths : accessPaths (openCall (bytes "/etc") ++ openCall (bytes "/usr")) \
      accessPaths (openCall (bytes "/usr") ++ openCall (bytes "/tmp")) = {bytes "/etc"} := by decide
  rw [hpaths, Finset.mem_singleton] at hpath
  exact hpath ▸ text_of_ascii (by decide)

/-- No UTF-8 text holds `0xff`, so that the item of this path has its hits only. -/
theorem delta_drops_path : ¬ DeltaExact [] (openCall [47, 255]) := by
  intro h
  obtain ⟨paths, -, -, heq⟩ := h.risk
  have hnone : none ∈ paths.map some := by
    rw [← heq]
    decide
  simp at hnone

end Retrace.Profiler
