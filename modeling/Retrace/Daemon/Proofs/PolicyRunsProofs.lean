import Retrace.Daemon.PolicyRuns
import Retrace.Daemon.Proofs.DeliveryProofs

/-!
# What the policy verbs do to documents and epochs
-/

namespace Retrace.Retraced

open CLib Parson Rpc Runs List Option

variable {c : Ctl} {epoch : Int64}

theorem set_value_set_value :
    json_object_set_value (json_object_set_value o name v) name w = json_object_set_value o name w := by
  induction o with
  | nil => simp [json_object_set_value]
  | cons x o ih =>
    obtain ⟨n, u⟩ := x
    by_cases hn : n = name
    · simp [json_object_set_value, hn]
    · simp [json_object_set_value, hn, ih]

theorem set_value_self (h : o.lookup name = some v) : json_object_set_value o name v = o := by
  induction o with
  | nil => simp at h
  | cons x o ih =>
    obtain ⟨n, u⟩ := x
    by_cases hn : n = name
    · subst hn
      simp only [lookup_cons_self, some.injEq] at h
      simp [json_object_set_value, h]
    · rw [lookup_cons, beq_false_of_ne (Ne.symm hn)] at h
      simp [json_object_set_value, hn, ih h]

theorem get_object_eq_some :
    json_object_get_object (some root) name = some pol ↔ root.lookup name = some (.object pol) := by
  rw [json_object_get_object, json_object_get_value, bind_some, bind_eq_some_iff]
  constructor
  · rintro ⟨v, hv, hpol⟩
    cases v with
    | object o =>
      cases hpol
      exact hv
    | _ => cases hpol
  · intro h
    exact ⟨_, h, rfl⟩

section

variable (hpol : json_object_get_object (some root) (bytes "policy") = some pol)
include hpol

theorem setEpoch_eq (d : ℚ) : setEpoch root d =
    json_object_set_value root (bytes "policy") (.object (json_object_set_number pol (bytes "epoch") d)) := by
  rw [setEpoch, hpol]

theorem get_object_setEpoch (d : ℚ) : json_object_get_object (some (setEpoch root d)) (bytes "policy") =
    some (json_object_set_number pol (bytes "epoch") d) := by
  rw [get_object_eq_some, setEpoch_eq hpol, lookup_set_value]

theorem docEpoch_setEpoch (d : ℚ) : docEpoch (setEpoch root d) = d := by
  rw [docEpoch, get_object_setEpoch hpol, json_object_get_number, json_object_get_value, bind_some,
    json_object_set_number, lookup_set_value]

theorem setEpoch_setEpoch (d e : ℚ) : setEpoch (setEpoch root d) e = setEpoch root e := by
  rw [setEpoch_eq (get_object_setEpoch hpol d), setEpoch_eq hpol, setEpoch_eq hpol, set_value_set_value,
    json_object_set_number, json_object_set_number, json_object_set_number, set_value_set_value]

theorem lookup_setEpoch (hname : name ≠ bytes "policy") (d : ℚ) :
    (setEpoch root d).lookup name = root.lookup name := by
  rw [setEpoch_eq hpol, lookup_set_value_of_ne _ hname]

end

theorem exists_header_of_epoch (h : 1 ≤ docEpoch root) :
    ∃ pol, json_object_get_object (some root) (bytes "policy") = some pol ∧
      pol.lookup (bytes "epoch") = some (.number (docEpoch root)) := by
  unfold docEpoch at h ⊢
  cases hpol : json_object_get_object (some root) (bytes "policy") with
  | none =>
    rw [hpol] at h
    simp [json_object_get_number, json_object_get_value] at h
    exact absurd h (by norm_num)
  | some pol =>
    rw [hpol] at h
    refine ⟨pol, rfl, ?_⟩
    rw [json_object_get_number, json_object_get_value, bind_some] at h ⊢
    split at h
    · next d hd => rw [hd]
    · exact absurd h (by norm_num)

theorem setEpoch_self (h : 1 ≤ docEpoch root) : setEpoch root (docEpoch root) = root := by
  obtain ⟨pol, hpol, hepoch⟩ := exists_header_of_epoch h
  rw [setEpoch_eq hpol, json_object_set_number, set_value_self hepoch]
  exact set_value_self (get_object_eq_some.mp hpol)

theorem restamp_object : restamp (.object root) epoch = .object (setEpoch root (roundDouble epoch.toInt)) := by
  rw [restamp, setEpoch]
  cases json_object_get_object (some root) (bytes "policy") <;> rfl

theorem toInt_succ {e : Int64} (h0 : 0 ≤ e.toInt) (h1 : e.toInt + 1 < 2 ^ 53) :
    (e + 1).toInt = e.toInt + 1 ∧ 1 ≤ (e + 1).toInt ∧ (e + 1).toInt < 2 ^ 53 := by
  have h : (1 : Int64).toInt = 1 := rfl
  have hsucc : (e + 1).toInt = e.toInt + 1 := by
    rw [Int64.toInt_add, h, Int.bmod_eq_of_le]
    · omega
    · omega
  omega

theorem doubleToLong_toInt (h1 : 1 ≤ d) (h2 : d < 2 ^ 53) : (doubleToLong d).toInt = ⌊d⌋ := by
  have hpos : 0 ≤ d := le_trans zero_le_one h1
  have hlow : 1 ≤ ⌊d⌋ := Int.le_floor.mpr (by exact_mod_cast h1)
  have hhigh : ⌊d⌋ < 2 ^ 53 := Int.floor_lt.mpr (by exact_mod_cast h2)
  have hsize : (Int64.size : ℤ) = 2 ^ 64 := rfl
  rw [doubleToLong, if_pos hpos, if_pos (by omega), Int64.toInt_ofInt, Int.bmod_eq_of_le]
  · rw [hsize]
    omega
  · rw [hsize]
    omega

theorem roundDouble_epoch {e : Int64} (h0 : 0 ≤ e.toInt) (h1 : e.toInt < 2 ^ 53) :
    roundDouble (e.toInt : ℚ) = e.toInt := by
  obtain ⟨n, hn⟩ := Int.eq_ofNat_of_zero_le h0
  rw [hn, Int.cast_natCast]
  exact roundDouble_natCast (by omega)

structure Source (text : Bytes) (root : JsonObject) : Prop where
  parses : json_parse_string text = some (.object root)
  bare : json_object_get_string (some root) (bytes "blob") = none
  normal : WellFormed IsNormal (MAX_NESTING + 1) (.object root)
  fits : ∀ epoch : Int64, 0 ≤ epoch.toInt → epoch.toInt < 2 ^ 53 →
    (json_serialize_to_string (restamp (.object root) epoch)).length < 8192
  epoch : 1 ≤ docEpoch root

theorem Restorable.source (h : Restorable text) {root : JsonObject}
    (hdoc : policy_document text = some (some root)) (hepoch : 1 ≤ docEpoch root) : Source text root := by
  obtain ⟨-, root', hparse, hbare, hnormal, hfits⟩ := h
  have hroot : root' = root := by
    simpa [policy_document, hparse, json_value_get_object, hbare] using hdoc
  subst hroot
  exact ⟨hparse, hbare, (wellFormed_json_parse hparse).normal hnormal, hfits, hepoch⟩

section

variable (h : Source text root)
include h

theorem Source.setEpoch_wellFormed {n : Nat} (hn : n ≤ 2 ^ 53) :
    WellFormed IsNormal (MAX_NESTING + 1) (.object (setEpoch root n)) := by
  obtain ⟨pol, hpol, -⟩ := exists_header_of_epoch h.epoch
  have hwf := h.normal.lookup (get_object_eq_some.mp hpol)
  rw [setEpoch_eq hpol]
  exact h.normal.set_value (by decide) (hwf.set_value (by decide) (.number (isNormal_natCast hn)))

theorem Source.thaw (h0 : 0 ≤ epoch.toInt) (h1 : epoch.toInt < 2 ^ 53) :
    json_parse_string (snprintf 8192 (thaw_text (some text) epoch)) =
      some (.object (setEpoch root epoch.toInt)) := by
  obtain ⟨n, hn⟩ := Int.eq_ofNat_of_zero_le h0
  have htext : thaw_text (some text) epoch = json_serialize_to_string (restamp (.object root) epoch) := by
    simp [thaw_text, h.parses]
  rw [htext, snprintf_eq_self (h.fits epoch h0 h1), restamp_object, roundDouble_epoch h0 h1, hn, Int.cast_natCast]
  exact json_parse_serialize (h.setEpoch_wellFormed (by omega))

theorem Source.get_string_setEpoch (d : ℚ) :
    json_object_get_string (some (setEpoch root d)) (bytes "blob") = none := by
  obtain ⟨pol, hpol, -⟩ := exists_header_of_epoch h.epoch
  have hbare := h.bare
  unfold json_object_get_string json_object_get_value at hbare ⊢
  rw [bind_some] at hbare ⊢
  rw [lookup_setEpoch hpol (by decide)]
  exact hbare

theorem Source.thaw_document (h0 : 0 ≤ epoch.toInt) (h1 : epoch.toInt < 2 ^ 53) :
    policy_document (snprintf 8192 (thaw_text (some text) epoch)) = some (some (setEpoch root epoch.toInt)) := by
  simp [policy_document, h.thaw h0 h1, json_value_get_object, h.get_string_setEpoch]

end

theorem fmtG17_epoch {n : Nat} (hn : n < 2 ^ 53) : fmtG17 (n : ℚ) = fmtInt n := by
  rw [fmtG17_natCast (by omega), fmtInt, if_neg (by omega), Int.natAbs_natCast]

def emptyRoot (d : ℚ) : JsonObject :=
  [(bytes "policy", .object [(bytes "epoch", .number d)]), (bytes "intercept_scripts", .array [])]

theorem serialize_emptyRoot : json_serialize_to_string (.object (emptyRoot d)) =
    bytes "\x7b\"policy\":\x7b\"epoch\":" ++ fmtG17 d ++ bytes "\x7d,\"intercept_scripts\":[]\x7d" := by
  have h1 : json_serialize_string (bytes "policy") = bytes "\"policy\"" := by decide
  have h2 : json_serialize_string (bytes "epoch") = bytes "\"epoch\"" := by decide
  have h3 : json_serialize_string (bytes "intercept_scripts") = bytes "\"intercept_scripts\"" := by decide
  simp only [json_serialize_to_string, emptyRoot, json_serialize_to_buffer_r, serialize_members, serialize_items,
    h1, h2, h3, isEmpty_cons, isEmpty_nil, Bool.false_eq_true, if_false, if_true]
  simp [bytes]

theorem length_serialize_emptyRoot {n : Nat} (hn : n < 2 ^ 53) :
    (json_serialize_to_string (.object (emptyRoot n))).length < 8192 := by
  have hlen : (fmtG17 (n : ℚ)).length ≤ 20 := by
    rw [fmtG17_natCast (by omega)]
    exact fmtNat_length_le (by norm_num) (by omega)
  have hfixed : (bytes "\x7b\"policy\":\x7b\"epoch\":").length = 19 ∧
      (bytes "\x7d,\"intercept_scripts\":[]\x7d").length = 25 := by decide
  rw [serialize_emptyRoot, length_append, length_append]
  omega

theorem signedNumbers_eq_nil {prev : UInt8} (h : 45 ∉ text) : signedNumbers prev inside text = [] := by
  induction text generalizing prev inside with
  | nil => rfl
  | cons c text ih =>
    obtain ⟨hc, htext⟩ := not_or.mp (mt mem_cons.mpr h)
    rw [signedNumbers, if_neg fun hminus => hc hminus.1.symm, ih htext, append_nil]

theorem restorable_paddedPolicy (n : Nat) : Restorable (paddedPolicy n) := by
  have hminus : 45 ∉ paddedPolicy n := by
    have hempty : 45 ∉ json_serialize_to_string emptyPolicy := by decide +kernel
    simp [paddedPolicy, hempty, mem_replicate]
  refine ⟨by simp [signedNumbers_eq_nil hminus], emptyRoot 1,
    json_parse_paddedPolicy n, by rfl, by decide +kernel, ?_⟩
  intro epoch h0 h1
  obtain ⟨k, hk⟩ := Int.eq_ofNat_of_zero_le h0
  have hroot : setEpoch (emptyRoot 1) k = emptyRoot k := rfl
  rw [restamp_object, roundDouble_epoch h0 h1, hk, Int.cast_natCast, hroot]
  exact length_serialize_emptyRoot (by omega)

theorem policy_document_padded (n : Nat) : policy_document (paddedPolicy n) = some (some (emptyRoot 1)) := by
  rw [policy_document, json_parse_paddedPolicy]
  rfl

theorem thaw_default_eq : thaw_default = paddedPolicy 0 := by decide +kernel

theorem source_thaw_default : Source thaw_default (emptyRoot 1) := by
  rw [thaw_default_eq]
  exact (restorable_paddedPolicy 0).source (policy_document_padded 0) (le_refl (1 : ℚ))

def freezeRoot (d : ℚ) : JsonObject :=
  [(bytes "policy", .object [(bytes "epoch", .number d)]),
    (bytes "intercept_scripts", .array [.object [(bytes "func_name", .string (bytes "*")),
      (bytes "actions", .array [.object [(bytes "action_name", .string (bytes "freeze"))]])]])]

theorem wellFormed_freezeRoot (hd : IsNormal d) :
    WellFormed IsNormal (MAX_NESTING + 1) (.object (freezeRoot d)) := by
  refine .pair (by decide) (by decide) (by decide) (.member (by decide) (.number hd)) (.item ?_)
  refine .pair (by decide) (by decide) (by decide) (.string (by decide)) (.item ?_)
  exact .member (by decide) (.string (by decide))

theorem freeze_text_eq (h0 : 0 ≤ epoch.toInt) (h1 : epoch.toInt < 2 ^ 53) :
    freeze_text epoch = json_serialize_to_string (.object (freezeRoot epoch.toInt)) := by
  obtain ⟨n, hn⟩ := Int.eq_ofNat_of_zero_le h0
  have hs1 : json_serialize_string (bytes "policy") = bytes "\"policy\"" := by decide
  have hs2 : json_serialize_string (bytes "epoch") = bytes "\"epoch\"" := by decide
  have hs3 : json_serialize_string (bytes "intercept_scripts") = bytes "\"intercept_scripts\"" := by decide
  have hs4 : json_serialize_string (bytes "func_name") = bytes "\"func_name\"" := by decide
  have hs5 : json_serialize_string (bytes "*") = bytes "\"*\"" := by decide
  have hs6 : json_serialize_string (bytes "actions") = bytes "\"actions\"" := by decide
  have hs7 : json_serialize_string (bytes "action_name") = bytes "\"action_name\"" := by decide
  have hs8 : json_serialize_string (bytes "freeze") = bytes "\"freeze\"" := by decide
  rw [freeze_text, hn, Int.cast_natCast]
  simp only [json_serialize_to_string, freezeRoot, json_serialize_to_buffer_r, serialize_members, serialize_items,
    hs1, hs2, hs3, hs4, hs5, hs6, hs7, hs8, isEmpty_cons, isEmpty_nil, Bool.false_eq_true, if_false, if_true,
    fmtG17_epoch (by omega : n < 2 ^ 53)]
  simp [bytes]

theorem freeze_text_length (h0 : 0 ≤ epoch.toInt) (h1 : epoch.toInt < 2 ^ 53) :
    (freeze_text epoch).length < 256 := by
  obtain ⟨n, hn⟩ := Int.eq_ofNat_of_zero_le h0
  have hlen : (fmtInt (n : ℤ)).length ≤ 20 := by
    rw [fmtInt, if_neg (by omega), Int.natAbs_natCast]
    exact fmtNat_length_le (by norm_num) (by omega)
  have hfixed : (bytes "\x7b\"policy\":\x7b\"epoch\":").length = 19 ∧
      (bytes "\x7d,\"intercept_scripts\":[\x7b\"func_name\":\"*\",\"actions\":[\x7b\"action_name\":\"freeze\"\x7d]\x7d]\x7d").length < 200 := by
    decide
  rw [freeze_text, hn, length_append, length_append]
  omega

theorem freeze_parses (h0 : 0 ≤ epoch.toInt) (h1 : epoch.toInt < 2 ^ 53) :
    json_parse_string (snprintf 256 (freeze_text epoch)) = some (.object (freezeRoot epoch.toInt)) := by
  obtain ⟨n, hn⟩ := Int.eq_ofNat_of_zero_le h0
  rw [snprintf_eq_self (freeze_text_length h0 h1), freeze_text_eq h0 h1, hn, Int.cast_natCast]
  exact json_parse_serialize (wellFormed_freezeRoot (isNormal_natCast (by omega)))

theorem freeze_document (h0 : 0 ≤ epoch.toInt) (h1 : epoch.toInt < 2 ^ 53) :
    policy_document (snprintf 256 (freeze_text epoch)) = some (some (freezeRoot epoch.toInt)) := by
  rw [policy_document, freeze_parses h0 h1]
  rfl

theorem retraced_policy_load_eq_some : retraced_policy_load text = some (blob, epoch) ↔
      blob = text ∧ ∃ root, policy_document text = some (some root) ∧ 1 ≤ docEpoch root ∧
        (json_object_get_array (some root) (bytes "intercept_scripts")).isSome ∧
          epoch = doubleToLong (docEpoch root) := by
  have hcheck : ∀ root, policy_check (some root) =
      if docEpoch root < 1 ∨ (json_object_get_array (some root) (bytes "intercept_scripts")).isNone then none
      else some (doubleToLong (docEpoch root)) := by
    intro root
    rw [policy_check, docEpoch]
    cases json_object_get_object (some root) (bytes "policy") <;> simp [json_object_get_number,
      json_object_get_value]
  have hnone : policy_check none = none := by
    simp [policy_check, json_object_get_object, json_object_get_value]
  cases hdoc : policy_document text with
  | none => simp [retraced_policy_load, hdoc]
  | some o =>
    cases o with
    | none => simp [retraced_policy_load, hdoc, hnone]
    | some root =>
      simp only [retraced_policy_load, hdoc, bind_eq_bind, bind_some, hcheck]
      split_ifs with hbad
      · simp only [bind_none, reduceCtorEq, false_iff, not_and, not_exists]
        rintro - root' ⟨⟨⟩⟩ hepoch hscripts
        rcases hbad with hlow | hmissing
        · exact absurd hepoch (not_le.mpr hlow)
        · simp [isSome_iff_ne_none] at hscripts hmissing
          exact absurd hmissing hscripts
      · push Not at hbad
        simp only [bind_some, some.injEq, Prod.mk.injEq]
        constructor
        · rintro ⟨rfl, rfl⟩
          exact ⟨rfl, root, rfl, hbad.1, by simpa [isSome_iff_ne_none] using hbad.2, rfl⟩
        · rintro ⟨rfl, root', rfl, -, -, rfl⟩
          exact ⟨rfl, rfl⟩

def pushed (c : Ctl) (blob : Bytes) (epoch : Int64) : Ctl :=
  { c with policy_blob := some blob, policy_epoch := epoch, frozen := false, thaw_blob := some blob }

theorem push_cases (c : Ctl) (line : Bytes) :
    (∃ text, policy_verb c (.push line) = (c, ctl_reply text) ∧ ¬RepliesOk (ctl_reply text)) ∨
      ∃ blob root, json_object_get_string (request line) (bytes "blob") = some blob ∧
        policy_document blob = some (some root) ∧ 1 ≤ docEpoch root ∧
        (json_object_get_array (some root) (bytes "intercept_scripts")).isSome ∧
        policy_verb c (.push line) = (pushed c blob (doubleToLong (docEpoch root)),
          policy_installed (pushed c blob (doubleToLong (docEpoch root))) blob (doubleToLong (docEpoch root))
            (bytes "retrace.policy.pushed") 160) := by
  simp only [policy_verb, verb_policy_push]
  cases hget : json_object_get_string (request line) (bytes "blob") with
  | none =>
    refine .inl ⟨_, rfl, ?_⟩
    apply not_repliesOk_ctl_reply
    decide
  | some text =>
    simp only
    cases hload : retraced_policy_load text with
    | none =>
      refine .inl ⟨_, rfl, ?_⟩
      apply not_repliesOk_ctl_reply
      decide
    | some r =>
      obtain ⟨blob, epoch⟩ := r
      obtain ⟨rfl, root, hdoc, hepoch, hscripts, rfl⟩ := retraced_policy_load_eq_some.mp hload
      exact .inr ⟨blob, root, rfl, hdoc, hepoch, hscripts, rfl⟩

def Ctl.source (c : Ctl) : Bytes := c.thaw_blob.getD thaw_default

theorem thaw_text_source (c : Ctl) (epoch : Int64) :
    thaw_text c.thaw_blob epoch = thaw_text (some c.source) epoch := by
  cases hb : c.thaw_blob <;> simp [thaw_text, Ctl.source, hb]

structure Good (c : Ctl) : Prop where
  nonneg : 0 ≤ c.policy_epoch.toInt
  below : c.policy_epoch.toInt < 2 ^ 53
  bounded : ∀ r, c.Holds r → docEpoch r < c.policy_epoch.toInt + 1
  source : ∃ root, Source c.source root

def Active (c : Ctl) : Prop :=
  c.frozen = false → ∃ root d, Source c.source root ∧ c.Holds (setEpoch root d)

theorem Good.push (h : Good c) (hok : RestorableStep c (.push line)) :
    Good (policyStep c (.push line)) ∧ c.policy_epoch.toInt ≤ (policyStep c (.push line)).policy_epoch.toInt ∧
      (Active c ∨ RepliesOk (policy_verb c (.push line)).2 → Active (policyStep c (.push line))) := by
  rcases push_cases c line with ⟨text, hverb, hrefused⟩ | ⟨blob, root, hget, hdoc, hepoch, -, hverb⟩
  · rw [policyStep, hverb]
    exact ⟨h, le_refl _, fun hact => hact.resolve_right hrefused⟩
  · obtain ⟨hrest, hlt, hle⟩ := hok blob root hget hdoc hepoch
    have hsrc := hrest.source hdoc hepoch
    have hlong := doubleToLong_toInt hepoch hlt
    have hlow : 1 ≤ ⌊docEpoch root⌋ := Int.le_floor.mpr (by exact_mod_cast hepoch)
    have hhigh : ⌊docEpoch root⌋ < 2 ^ 53 := Int.floor_lt.mpr (by exact_mod_cast hlt)
    rw [policyStep, hverb]
    refine ⟨⟨?_, ?_, ?_, root, hsrc⟩, Int64.le_iff_toInt_le.mp hle, ?_⟩
    · show 0 ≤ (doubleToLong (docEpoch root)).toInt
      omega
    · show (doubleToLong (docEpoch root)).toInt < 2 ^ 53
      omega
    · rintro r ⟨b, hb, hr⟩
      cases hb
      rw [hdoc] at hr
      cases hr
      show docEpoch root < ((doubleToLong (docEpoch root)).toInt : ℚ) + 1
      rw [hlong]
      exact Int.lt_floor_add_one _
    · intro _ _
      exact ⟨root, docEpoch root, hsrc, blob, rfl, by rw [setEpoch_self hepoch, hdoc]⟩

theorem Good.freeze (h : Good c) (hok : RestorableStep c .freeze) :
    Good (policyStep c .freeze) ∧ (policyStep c .freeze).policy_epoch.toInt = c.policy_epoch.toInt + 1 ∧
      Active (policyStep c .freeze) := by
  obtain ⟨hsucc, hpos, h1⟩ := toInt_succ h.nonneg hok
  have h0 : 0 ≤ (c.policy_epoch + 1).toInt := by omega
  refine ⟨⟨h0, h1, ?_, h.source⟩, hsucc, fun hf => by cases hf⟩
  rintro r ⟨b, hb, hr⟩
  cases hb
  rw [freeze_document h0 h1] at hr
  cases hr
  show ((c.policy_epoch + 1).toInt : ℚ) < (c.policy_epoch + 1).toInt + 1
  exact lt_add_one _

theorem Good.thaw (h : Good c) (hok : RestorableStep c .thaw) {root : JsonObject} (hsrc : Source c.source root) :
    Good (policyStep c .thaw) ∧ (policyStep c .thaw).policy_epoch.toInt = c.policy_epoch.toInt + 1 ∧
      (policyStep c .thaw).Holds (setEpoch root (c.policy_epoch.toInt + 1)) ∧ Active (policyStep c .thaw) := by
  obtain ⟨hsucc, hpos, h1⟩ := toInt_succ h.nonneg hok
  have h0 : 0 ≤ (c.policy_epoch + 1).toInt := by omega
  have hdoc : policy_document (snprintf 8192 (thaw_text c.thaw_blob (c.policy_epoch + 1))) =
      some (some (setEpoch root (c.policy_epoch.toInt + 1))) := by
    rw [thaw_text_source, hsrc.thaw_document h0 h1, hsucc]
    push_cast
    rfl
  have hholds : (policyStep c .thaw).Holds (setEpoch root (c.policy_epoch.toInt + 1)) := ⟨_, rfl, hdoc⟩
  obtain ⟨pol, hpol, -⟩ := exists_header_of_epoch hsrc.epoch
  refine ⟨⟨h0, h1, ?_, root, hsrc⟩, hsucc, hholds, fun _ => ⟨root, _, hsrc, hholds⟩⟩
  rintro r ⟨b, hb, hr⟩
  cases hb
  rw [hdoc] at hr
  cases hr
  rw [docEpoch_setEpoch hpol]
  show (c.policy_epoch.toInt : ℚ) + 1 < (c.policy_epoch + 1).toInt + 1
  rw [hsucc]
  push_cast
  exact lt_add_one _

/-- A verb keeps a policy to thaw and never lowers the epoch; after one that replies ok this policy is in
force, unless frozen. -/
theorem Good.step (h : Good c) (hok : RestorableStep c v) :
    Good (policyStep c v) ∧ c.policy_epoch.toInt ≤ (policyStep c v).policy_epoch.toInt ∧
      (Active c ∨ RepliesOk (policy_verb c v).2 → Active (policyStep c v)) := by
  cases v with
  | push line => exact h.push hok
  | freeze =>
    obtain ⟨hgood, hepoch, hact⟩ := h.freeze hok
    exact ⟨hgood, by omega, fun _ => hact⟩
  | thaw =>
    obtain ⟨root, hsrc⟩ := h.source
    obtain ⟨hgood, hepoch, -, hact⟩ := h.thaw hok hsrc
    exact ⟨hgood, by omega, fun _ => hact⟩

/-- The same for every sequence of such verbs. -/
theorem Good.after (h : Good c) (hok : Along policyStep RestorableStep c vs) :
    Good (run policyStep c vs) ∧ c.policy_epoch.toInt ≤ (run policyStep c vs).policy_epoch.toInt ∧
      (Active c → Active (run policyStep c vs)) := by
  induction vs generalizing c with
  | nil => exact ⟨h, le_refl _, id⟩
  | cons v vs ih =>
    obtain ⟨hgood, hle, hact⟩ := h.step hok.1
    obtain ⟨hgood', hle', hact'⟩ := ih hgood hok.2
    exact ⟨hgood', hle.trans hle', fun ha => hact' (hact (.inl ha))⟩

end Retrace.Retraced
