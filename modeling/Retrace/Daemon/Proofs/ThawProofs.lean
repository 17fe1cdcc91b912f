import Retrace.Daemon.Proofs.PolicyRunsProofs

/-!
# Thawing restores the policy

Once a verb was carried out, the policy in force is the saved one at another epoch, and a thaw installs
the saved one at the next epoch. A policy that was loaded at boot is not saved: the thaw installs a
policy without scripts instead.
-/

namespace Retrace.Retraced

open CLib Parson Rpc Runs

theorem PolicyBooted.good (h : PolicyBooted c)
    (hlow : ∀ root, c.Holds root → docEpoch root < 2 ^ 53) : Good c := by
  cases h with
  | bare conns scopes =>
    refine ⟨le_refl _, ?_, ?_, _, source_thaw_default⟩
    · show (0 : Int64).toInt < 2 ^ 53
      decide
    · rintro r ⟨b, hb, -⟩
      cases hb
  | loaded hload =>
    obtain ⟨epoch, -, hpolicy, rfl⟩ := load_policy_some hload
    obtain ⟨-, root, hdoc, hepoch, -, rfl⟩ := retraced_policy_load_eq_some.mp hpolicy
    have hlt := hlow root ⟨_, rfl, hdoc⟩
    have hlong := doubleToLong_toInt hepoch hlt
    have h1 : 1 ≤ ⌊docEpoch root⌋ := Int.le_floor.mpr (by exact_mod_cast hepoch)
    have h2 : ⌊docEpoch root⌋ < 2 ^ 53 := Int.floor_lt.mpr (by exact_mod_cast hlt)
    refine ⟨?_, ?_, ?_, _, source_thaw_default⟩
    · show 0 ≤ (doubleToLong (docEpoch root)).toInt
      omega
    · show (doubleToLong (docEpoch root)).toInt < 2 ^ 53
      omega
    · rintro r ⟨b, hb, hr⟩
      cases hb
      rw [hdoc] at hr
      cases hr
      show docEpoch root < ((doubleToLong (docEpoch root)).toInt : ℚ) + 1
      rw [hlong]
      exact Int.lt_floor_add_one _

theorem Good.active (h : Good c₀)
    (hok : Along policyStep RestorableStep c₀ vs) (hsome : SomeOk c₀ vs) : Active (run policyStep c₀ vs) := by
  obtain ⟨pre, v, post, rfl, hreply⟩ := hsome
  rw [along_append, along_cons] at hok
  obtain ⟨hpre, hv, hpost⟩ := hok
  obtain ⟨hgood, -, -⟩ := h.after hpre
  obtain ⟨hgood', -, hact⟩ := hgood.step hv
  rw [run_append, run_cons]
  exact (hgood'.after hpost).2.2 (hact (.inr hreply))

theorem source_run_freeze (c : Ctl) (n : Nat) :
    (run policyStep c (List.replicate n .freeze)).source = c.source := by
  induction n generalizing c with
  | zero => rfl
  | succ n ih =>
    rw [List.replicate_succ, run_cons, ih]
    rfl

/-- **Thaw.** In every run whose pushes can be restored and whose epochs are in order and below
`2 ^ 53`, a thaw restores the policy that was in force before the freeze, unless that policy is the
one of the boot. -/
theorem thaw_restores {c₀ : Ctl} (hboot : PolicyBooted c₀) (hlow : ∀ root, c₀.Holds root → docEpoch root < 2 ^ 53)
    {vs : List PolicyVerb} {n : Nat}
    (hok : Along policyStep RestorableStep c₀ (vs ++ List.replicate (n + 1) .freeze ++ [.thaw]))
    (hsome : SomeOk c₀ vs) (hactive : (run policyStep c₀ vs).frozen = false) : ThawRestores c₀ vs n := by
  have hgood := hboot.good hlow
  obtain ⟨hfreezes, hthaw⟩ := (along_append _ _ _).mp hok
  obtain ⟨hvs, -⟩ := (along_append _ _ _).mp hfreezes
  obtain ⟨root, d, hsrc, hholds⟩ := hgood.active hvs hsome hactive
  obtain ⟨pol, hpol, -⟩ := exists_header_of_epoch hsrc.epoch
  obtain ⟨hfrozen, -, -⟩ := hgood.after hfreezes
  have hsrc' : Source (run policyStep c₀ (vs ++ List.replicate (n + 1) .freeze)).source root := by
    rw [run_append, source_run_freeze]
    exact hsrc
  obtain ⟨-, -, hrestored, -⟩ := hfrozen.thaw hthaw.1 hsrc'
  refine ⟨_, _, hholds, by rw [run_append]; exact hrestored, ?_, ?_⟩
  · rw [docEpoch_setEpoch hpol, setEpoch_setEpoch hpol]
  · rintro pre r ⟨post, hpre⟩ hr
    rw [docEpoch_setEpoch hpol]
    rw [← hpre, along_append] at hfreezes
    obtain ⟨hgpre, -, -⟩ := hgood.after hfreezes.1
    have hle := (hgpre.after hfreezes.2).2.1
    rw [← run_append, hpre] at hle
    have hbound := hgpre.bounded r hr
    have hle' : ((run policyStep c₀ pre).policy_epoch.toInt : ℚ) ≤
        (run policyStep c₀ (vs ++ List.replicate (n + 1) .freeze)).policy_epoch.toInt := by exact_mod_cast hle
    linarith

/-- A pushed policy is restored by a thaw. -/
theorem thaw_restores_pushed :
    ThawRestores { conns := [], scopes := 0 } [.push (pushLine (paddedPolicy 0))] 0 := by
  refine thaw_restores (.bare [] 0) ?_ ?_ ?_ ?_
  · rintro root ⟨b, hb, -⟩
    cases hb
  · refine ⟨?_, ?_, ?_, trivial⟩
    · intro blob root hget hdoc hepoch
      rw [get_blob_pushLine] at hget
      cases hget
      rw [policy_document_padded] at hdoc
      cases hdoc
      exact ⟨restorable_paddedPolicy 0, by decide +kernel, by decide +kernel⟩
    · simp only [policyStep, policy_verb, verb_policy_push_padded]
      show (doubleToLong 1).toInt + 1 < 2 ^ 53
      decide +kernel
    · simp only [policyStep, policy_verb, verb_policy_push_padded]
      show (doubleToLong 1 + 1).toInt + 1 < 2 ^ 53
      decide +kernel
  · refine ⟨[], _, [], rfl, ?_⟩
    rw [policy_verb]
    exact repliesOk_push_padded _ 0
  · rw [run_cons, run_nil, policyStep, policy_verb, verb_policy_push_padded]

def jailRoot : JsonObject :=
  [(bytes "policy", .object [(bytes "epoch", .number 1)]),
    (bytes "intercept_scripts", .array [.object [(bytes "func_name", .string (bytes "open"))]])]

theorem wellFormed_jailRoot : WellFormed IsNormal (MAX_NESTING + 1) (.object jailRoot) :=
  .pair (by decide) (by decide) (by decide) (.member (by decide) (.number isNormal_one))
    (.item (.member (by decide) (.string (by decide))))

def jailText : Bytes := json_serialize_to_string (.object jailRoot)

theorem policy_document_jailText : policy_document jailText = some (some jailRoot) := by
  rw [policy_document, jailText, json_parse_serialize wellFormed_jailRoot]
  rfl

/-- A policy that was loaded at boot is lost. -/
theorem thaw_forgets_boot :
    ∃ c, load_policy { conns := [], scopes := 0 } jailText = some c ∧ c.frozen = false ∧ ¬ThawRestores c [] 0 := by
  have hload : load_policy { conns := [], scopes := 0 } jailText =
      some { policy_blob := some jailText, policy_epoch := doubleToLong 1, conns := [], scopes := 0 } := by
    have hsize : ¬(jailText.length = 0 ∨ POLICY_MAX_BYTES < jailText.length) := by decide +kernel
    have hcstr : cstr jailText = jailText := by decide +kernel
    have hpolicy : retraced_policy_load jailText = some (jailText, doubleToLong 1) :=
      retraced_policy_load_eq_some.mpr ⟨rfl, jailRoot, policy_document_jailText, le_refl (1 : ℚ), rfl, rfl⟩
    rw [load_policy, if_neg hsize, hcstr, hpolicy]
  refine ⟨_, hload, rfl, ?_⟩
  rintro ⟨root, root', ⟨b, hb, hroot⟩, ⟨b', hb', hroot'⟩, hsame, -⟩
  -- the document in force
  cases hb
  rw [policy_document_jailText] at hroot
  cases hroot
  -- the document behind the thaw
  have hgood := (PolicyBooted.loaded hload).good (by
    rintro r ⟨b, hb, hr⟩
    cases hb
    rw [policy_document_jailText] at hr
    cases hr
    show (1 : ℚ) < 2 ^ 53
    norm_num)
  obtain ⟨hfrozen, -, -⟩ := hgood.freeze (by
    show (doubleToLong 1).toInt + 1 < 2 ^ 53
    decide +kernel)
  obtain ⟨-, -, ⟨b, hb, hthawed⟩, -⟩ := hfrozen.thaw (by
    show (doubleToLong 1 + 1).toInt + 1 < 2 ^ 53
    decide +kernel) source_thaw_default
  have hb'' : b = b' := by
    rw [← Option.some_inj, ← hb, ← hb']
    rfl
  rw [← hb'', hthawed] at hroot'
  cases hroot'
  -- they differ in their scripts
  have hscripts := congrArg (List.lookup (bytes "intercept_scripts")) hsame
  have hjail : json_object_get_object (some jailRoot) (bytes "policy") = some [(bytes "epoch", .number 1)] := rfl
  have hempty : json_object_get_object (some (emptyRoot 1)) (bytes "policy") =
      some [(bytes "epoch", .number 1)] := rfl
  rw [lookup_setEpoch hjail (by decide), lookup_setEpoch hempty (by decide)] at hscripts
  cases hscripts

end Retrace.Retraced
