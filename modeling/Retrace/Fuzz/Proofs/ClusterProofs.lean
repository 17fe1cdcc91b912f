import Retrace.Fuzz.Cluster
import Retrace.Journal.Proofs.TamperProofs

/-!
# Clusters partition the failures

The digest is injective in the coverage, as its multipliers are odd. It does not tell a crash from an assertion.
-/

namespace Retrace.Fuzz

open CLib Retraced List

/-- The digest of a failing run. -/
def FuzzRun.cluster (run : FuzzRun) : Option UInt64 :=
  if run.is_crash || run.is_assert then some run.signature else none

/-- The clusters of the report on `runs` partition the failing ones. -/
structure Partitions (runs : List FuzzRun) : Prop where
  ids : ((fuzz_report runs).clusters.map FuzzCluster.id).Nodup
  counts : ∀ c ∈ (fuzz_report runs).clusters, c.count = runs.countP (·.cluster = some c.id)
  sum : ((fuzz_report runs).clusters.map FuzzCluster.count).sum =
    (fuzz_report runs).crashes + (fuzz_report runs).assertions
  kind : ∀ x ∈ runs, ∀ y ∈ runs, x.cluster.isSome → x.cluster = y.cluster → x.is_crash = y.is_crash
  coverage : ∀ x ∈ runs, ∀ y ∈ runs, x.cluster.isSome → last_func x.trace_json = last_func y.trace_json →
    x.coverage ≠ y.coverage → x.cluster ≠ y.cluster
  first_seed : ∀ c ∈ (fuzz_report runs).clusters,
    (runs.find? (·.cluster = some c.id)).map FuzzRun.seed = some c.first_seed

theorem mul_golden_injective {x y : UInt64} (h : x * 0x9E3779B97F4A7C15 = y * 0x9E3779B97F4A7C15) : x = y := by
  have hinv : (0x9E3779B97F4A7C15 : UInt64) * 0xF1DE83E19937733D = 1 := by decide
  calc x = x * 0x9E3779B97F4A7C15 * 0xF1DE83E19937733D := by rw [UInt64.mul_assoc, hinv, UInt64.mul_one]
    _ = y * 0x9E3779B97F4A7C15 * 0xF1DE83E19937733D := by rw [h]
    _ = y := by rw [UInt64.mul_assoc, hinv, UInt64.mul_one]

theorem digest_injective : Function.Injective (digest func params) :=
  fun _ _ h => mul_golden_injective (xor_cancel_left (fnv_mul_injective h))

/-- A clean run is not filed; a failing one is counted under its digest. -/
theorem fold_cases (r : FuzzReport) (run : FuzzRun) :
    (run.cluster = none ∧ (fuzz_report_fold r run).1.clusters = r.clusters ∧
      (fuzz_report_fold r run).1.crashes + (fuzz_report_fold r run).1.assertions = r.crashes + r.assertions) ∨
    run.cluster = some run.signature ∧
      (fuzz_report_fold r run).1.clusters = count_cluster run.new_cluster r.clusters ∧
      (fuzz_report_fold r run).1.crashes + (fuzz_report_fold r run).1.assertions =
        r.crashes + r.assertions + 1 := by
  have hassert : run.is_crash = true → run.is_assert = false := fun h => by simp [FuzzRun.is_assert, h]
  unfold FuzzRun.cluster fuzz_report_fold
  cases hcrash : run.is_crash with
  | true => exact .inr ⟨rfl, by simp, by simp [hassert hcrash]; omega⟩
  | false =>
    cases hass : run.is_assert with
    | true => exact .inr ⟨rfl, by simp, by simp; omega⟩
    | false => exact .inl ⟨rfl, by simp, by simp⟩

theorem map_id_count_cluster : (count_cluster new cs).map FuzzCluster.id =
    cs.map FuzzCluster.id ++ if new.id ∈ cs.map FuzzCluster.id then [] else [new.id] := by
  induction cs with
  | nil => rfl
  | cons d cs ih =>
    rw [count_cluster]
    by_cases hd : d.id = new.id
    · simp [hd]
    · simp [hd, ih, Ne.symm hd]

theorem sum_count_cluster (hnew : new.count = 0) :
    ((count_cluster new cs).map FuzzCluster.count).sum = (cs.map FuzzCluster.count).sum + 1 := by
  induction cs with
  | nil => simp [count_cluster, hnew]
  | cons d cs ih =>
    rw [count_cluster]
    split_ifs
    · simp only [map_cons, sum_cons]
      omega
    · simp only [map_cons, sum_cons, ih]
      omega

theorem mem_count_cluster (hids : (cs.map FuzzCluster.id).Nodup) (h : c ∈ count_cluster new cs) :
    c ∈ cs ∧ c.id ≠ new.id ∨ (∃ d ∈ cs, d.id = new.id ∧ c = { d with count := d.count + 1 }) ∨
      new.id ∉ cs.map FuzzCluster.id ∧ c = { new with count := new.count + 1 } := by
  induction cs with
  | nil => simp_all [count_cluster]
  | cons d cs ih =>
    rw [count_cluster] at h
    rw [map_cons, nodup_cons] at hids
    split_ifs at h with hd
    · grind
    · grind

structure Filed (runs : List FuzzRun) (r : FuzzReport) : Prop where
  ids : (r.clusters.map FuzzCluster.id).Nodup
  filed : ∀ run ∈ runs, ∀ id, run.cluster = some id → id ∈ r.clusters.map FuzzCluster.id
  sum : (r.clusters.map FuzzCluster.count).sum = r.crashes + r.assertions
  counts : ∀ c ∈ r.clusters, c.count = runs.countP (·.cluster = some c.id)
  first_seed : ∀ c ∈ r.clusters, (runs.find? (·.cluster = some c.id)).map FuzzRun.seed = some c.first_seed

/-- One more run is filed under its own cluster, and the clusters still count all runs once. -/
theorem Filed.step (h : Filed runs r) (run : FuzzRun) : Filed (runs ++ [run]) (fuzz_report_fold r run).1 := by
  obtain ⟨hnone, hclusters, hsum⟩ | ⟨hsome, hclusters, hsum⟩ := fold_cases r run
  · refine ⟨hclusters ▸ h.ids, ?_, by rw [hclusters, hsum, h.sum], ?_, ?_⟩
    · simpa [hclusters, or_imp, forall_and, hnone] using h.filed
    · simpa [hclusters, countP_append, hnone] using h.counts
    · simpa [hclusters, find?_append, hnone] using h.first_seed
  · -- no earlier run has the digest of a new cluster
    have hunfiled : run.signature ∉ r.clusters.map FuzzCluster.id → ∀ x ∈ runs, x.cluster ≠ some run.signature :=
      fun hnot x hx heq => hnot (h.filed x hx _ heq)
    have hids : (count_cluster run.new_cluster r.clusters).map FuzzCluster.id = r.clusters.map FuzzCluster.id ++
      if run.signature ∈ r.clusters.map FuzzCluster.id then [] else [run.signature] := map_id_count_cluster
    refine ⟨?_, ?_, ?_, fun c hc => ?_, fun c hc => ?_⟩
    · rw [hclusters, hids]
      split_ifs with hmem
      · simpa using h.ids
      · simpa using h.ids.concat hmem
    · rw [hclusters, hids]
      rintro x hx id hid
      rcases mem_append.1 hx with hx | hx
      · exact mem_append_left _ (h.filed x hx id hid)
      · obtain rfl : run.signature = id := by simpa [mem_singleton.1 hx, hsome] using hid
        split_ifs with hmem
        · simpa using hmem
        · simp
    · rw [hclusters, hsum, sum_count_cluster rfl, h.sum]
    · rw [hclusters] at hc
      obtain ⟨hold, (hne : c.id ≠ run.signature)⟩ | ⟨d, hd, (hid : d.id = run.signature), rfl⟩ | ⟨hnot, rfl⟩ :=
        mem_count_cluster h.ids hc
      · simpa [countP_append, hsome, Ne.symm hne] using h.counts c hold
      · simp [countP_append, hsome, hid, h.counts d hd]
      · have hzero : runs.countP (·.cluster = some run.signature) = 0 :=
          countP_eq_zero.2 (by simpa using hunfiled hnot)
        change 0 + 1 = (runs ++ [run]).countP (·.cluster = some run.signature)
        rw [countP_append, hzero]
        simp [hsome]
    · rw [hclusters] at hc
      obtain ⟨hold, (hne : c.id ≠ run.signature)⟩ | ⟨d, hd, (hid : d.id = run.signature), rfl⟩ | ⟨hnot, rfl⟩ :=
        mem_count_cluster h.ids hc
      · simpa [find?_append, hsome, Ne.symm hne] using h.first_seed c hold
      · obtain ⟨x, hx, hseed⟩ := Option.map_eq_some_iff.1 (h.first_seed d hd)
        simp [find?_append, hx, hseed]
      · have hnone : runs.find? (·.cluster = some run.signature) = none :=
          find?_eq_none.2 (by simpa using hunfiled hnot)
        change ((runs ++ [run]).find? (·.cluster = some run.signature)).map FuzzRun.seed = some run.seed
        rw [find?_append, hnone]
        simp [hsome]

theorem filed_report (runs : List FuzzRun) : Filed runs (fuzz_report runs) := by
  induction runs using reverseRecOn with
  | nil => exact ⟨.nil, by simp, rfl, by simp [fuzz_report], by simp [fuzz_report]⟩
  | append_singleton runs run ih =>
    rw [fuzz_report, foldl_concat]
    exact ih.step run

/-- The clusters partition the failures just when no crash and assertion share their digest. -/
theorem clusters_partition_iff (runs : List FuzzRun) :
    Partitions runs ↔ ∀ x ∈ runs, ∀ y ∈ runs, x.is_crash = true → y.is_assert = true →
      x.signature ≠ y.signature := by
  have hfiled := filed_report runs
  constructor
  · intro h x hx y hy hcrash hassert heq
    have hxy := h.kind x hx y hy (by simp [FuzzRun.cluster, hcrash])
        (by simp [FuzzRun.cluster, hcrash, hassert, heq])
    simp [FuzzRun.is_assert, ← hxy, hcrash] at hassert
  · intro h
    refine ⟨hfiled.ids, hfiled.counts, hfiled.sum, fun x hx y hy hsome heq => ?_,
      fun x _ y _ hsome hlast hne heq => ?_,
      hfiled.first_seed⟩
    · simp only [FuzzRun.cluster] at hsome heq
      cases hcx : x.is_crash <;> cases hcy : y.is_crash <;> grind
    · simp only [FuzzRun.cluster, FuzzRun.signature, ← hlast] at hsome heq
      split_ifs at hsome heq with hfx hfy
      · exact hne (digest_injective (Option.some.inj heq))
      · simp at hsome

/-- A crash and an assertion, both without a call in the trace. -/
theorem crash_meets_assertion :
    ¬ Partitions [⟨11, none, 1, none, 0⟩, ⟨0, some (bytes "X"), 2, some (bytes "X"), 0⟩] := by
  intro h
  have hkind := h.kind ⟨11, none, 1, none, 0⟩ (by simp) ⟨0, some (bytes "X"), 2, some (bytes "X"), 0⟩ (by simp)
    (by decide) (by decide)
  exact absurd hkind (by decide)

end Retrace.Fuzz
