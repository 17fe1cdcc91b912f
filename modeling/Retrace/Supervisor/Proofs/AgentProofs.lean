import Retrace.Supervisor.Agent

/-!
# The policy state of an agent is monotone and atomic
-/

namespace Retrace.Supervisor

open CLib Parson Retraced Retrace.Core Rpc Runs

variable {C : Crypto} {w : AgentWorld} {a : Agent C}

theorem sig_check_ok (h : retrace_policy_sig_check C w.toWorld st p 8192 = .ok doc) :
    policyRoot p = (json_parse_string doc).bind json_value_get_object := by
  unfold retrace_policy_sig_check at h
  cases hv : json_parse_string p with
  | none => simp [hv] at h
  | some v =>
    simp only [hv] at h
    cases hsig : json_object_get_object (json_value_get_object v) (bytes "sig") with
    | none =>
      cases hblob : json_object_get_string (json_value_get_object v) (bytes "blob") with
      | none =>
        simp only [hsig, hblob, Except.ok.injEq] at h
        simp [policyRoot, hv, hsig, hblob, ← h]
      | some blob => simp [hsig, hblob] at h
    | some sig =>
      cases hblob : json_object_get_string (json_value_get_object v) (bytes "blob") with
      | none => simp [hsig, hblob] at h
      | some blob =>
        simp only [hsig, hblob] at h
        have hdoc : doc = snprintf 8192 blob := by
          split_ifs at h <;> simp_all
        simp [policyRoot, hv, hsig, hblob, ← hdoc]

theorem validate_document_ok (h : validate_document w.toWorld doc have_epoch = .ok root epoch) :
    (json_parse_string doc).bind json_value_get_object = some root ∧ epoch = policyEpoch root ∧
      have_epoch < epoch := by
  unfold validate_document at h
  cases hv : json_parse_string doc with
  | none => simp [hv] at h
  | some v =>
    cases hroot : json_value_get_object v with
    | none => simp [hv, hroot] at h
    | some root' =>
      cases hpol : json_object_get_object (some root') (bytes "policy") with
      | none => simp [hv, hroot, hpol] at h
      | some pol =>
        simp only [hv, hroot, hpol] at h
        split_ifs at h with hlow hheld hless hexp hscripts
        cases h
        refine ⟨hroot, by rw [policyEpoch, hpol], ?_⟩
        exact UInt64.lt_of_le_of_ne (UInt64.not_lt.mp hless) (Ne.symm hheld)

theorem validate_ok (h : retrace_policy_validate C w.toWorld st (some p) have_epoch = (st', .ok root epoch)) :
    policyRoot p = some root ∧ epoch = policyEpoch root ∧ have_epoch < epoch := by
  simp only [retrace_policy_validate] at h
  cases hcheck : retrace_policy_sig_check C w.toWorld (retrace_policy_sig_init C w.toWorld st) p 8192 with
  | error reason => simp [hcheck] at h
  | ok doc =>
    simp only [hcheck, Prod.mk.injEq] at h
    rw [sig_check_ok hcheck]
    exact validate_document_ok h.2

theorem refusal_text_ne_nil (r : Refusal) : snprintf 96 r.text ≠ [] := by
  cases r <;> decide

theorem apply_cases : ∃ rc reason a', retrace_agent_policy_apply w a (some p) 96 = (rc, reason, a') ∧
      (rc = 0 ↔ reason = []) ∧ reason.length < 96 ∧ a'.sent = a.sent ∧ a'.agent_id = a.agent_id ∧
      (a'.installed = a.installed ∨ rc = 0 ∧ a.policy_epoch < a'.policy_epoch ∧
          ∃ root, policyRoot p = some root ∧ a'.retrace_conf = some root ∧
            a'.g_snap = retrace_config_cache_build w.alloc (some root) ∧ a'.policy_epoch = policyEpoch root) := by
  unfold retrace_agent_policy_apply
  generalize hval : retrace_policy_validate C w.toWorld a.sig (some p) a.policy_epoch = r
  obtain ⟨sig, v⟩ := r
  cases v with
  | held => exact ⟨_, _, _, rfl, by simp, by simp, rfl, rfl, .inl rfl⟩
  | refused reason =>
    exact ⟨_, _, _, rfl, by simp [refusal_text_ne_nil], snprintf_length_lt (by omega) (le_refl _) _, rfl,
      rfl, .inl rfl⟩
  | ok root epoch =>
    obtain ⟨hroot, rfl, hlt⟩ := validate_ok hval
    cases hbuild : retrace_config_cache_build w.alloc (some root) with
    | none =>
      simp only [hbuild]
      exact ⟨_, _, _, rfl, by simp [refusal_text_ne_nil], snprintf_length_lt (by omega) (le_refl _) _, rfl,
        rfl, .inl rfl⟩
    | some snap =>
      simp only [hbuild]
      exact ⟨_, _, _, rfl, by simp, by simp, rfl, rfl,
        .inr ⟨rfl, hlt, root, hroot, rfl, hbuild.symm, rfl⟩⟩

theorem atomicStep : AtomicStep a d := by
  obtain ⟨rc, reason, a', happ, -, -, -, -, hcases⟩ := apply_cases
  have hdeliver : deliver a d = a' := by rw [deliver, applied, happ]
  have hrc : (applied a d).1 = rc := by rw [applied, happ]
  rcases hcases with hsame | ⟨hok, hlt, root, hroot, hconf, hsnap, hepoch⟩
  · have hfields : a'.retrace_conf = a.retrace_conf ∧ a'.g_snap = a.g_snap ∧
        a'.policy_epoch = a.policy_epoch := by simpa [Agent.installed] using hsame
    obtain ⟨hconf, hsnap, hepoch⟩ := hfields
    constructor
    · rw [hdeliver, hepoch]
      exact UInt64.le_refl _
    · rw [hdeliver, hconf, hsnap]
      simp
    · rw [hdeliver, hepoch]
      exact fun h => absurd h (UInt64.lt_irrefl _)
    · rw [hdeliver]
      exact fun _ => hsame
    · rw [hdeliver]
      exact fun _ _ _ => hsame
  · constructor
    · rw [hdeliver]
      exact UInt64.le_of_lt hlt
    · rw [hdeliver]
      exact fun _ => hlt
    · rw [hdeliver]
      exact fun _ => ⟨root, hroot, hconf, hsnap, hepoch⟩
    · rw [hrc]
      exact fun h => absurd hok h
    · intro root' hroot' heq
      rw [hroot] at hroot'
      cases hroot'
      rw [hepoch, heq] at hlt
      exact absurd hlt (UInt64.lt_irrefl _)

theorem ack_fits {id reason : Bytes} (hid : id.length < 96) (hreason : reason.length < 96)
    (epoch : UInt64) (applied : Bool) : (ack_text id epoch applied reason).length < 320 := by
  have hepoch : (fmtNat epoch.toNat).length ≤ 20 :=
    fmtNat_length_le (by omega) (lt_trans epoch.toNat_lt (by norm_num))
  have hword : (if applied then bytes "true" else bytes "false").length ≤ 5 := by
    cases applied <;> decide
  have hwhy : (if applied then [] else if reason = [] then bytes "refused" else reason).length < 96 := by
    split_ifs
    · simp
    · decide
    · exact hreason
  have hfixed : (bytes "\x7b\"agent_id\":\"").length = 13 ∧ (bytes "\",\"policy_epoch\":").length = 17 ∧
      (bytes ",\"applied\":").length = 11 ∧ (bytes ",\"reason\":\"").length = 11 ∧
      (bytes "\"\x7d").length = 2 := by decide
  simp only [ack_text, List.length_append]
  omega

theorem acksApplied (w : AgentWorld) (a : Agent C) {m : Message}
    (hm : m.frame.type = RpcMsg.POLICY_SET.id) : AcksApplied w a m := by
  obtain ⟨rc, reason, a', happ, hrc, hlen, hsent, -⟩ := apply_cases
  have hne : RpcMsg.POLICY_SET.id ≠ RpcMsg.WELCOME.id := by decide
  have hhandle : handle_frame w a m = send_policy_ack w a' (reason = []) reason := by
    rw [handle_frame, hm, if_neg hne, if_pos rfl, handle_policy_set, happ]
  have hfits := ack_fits a'.id_fits hlen a'.policy_epoch (decide (reason = []))
  refine ⟨reason, decide (reason = []), _, rfl, ?_, ?_⟩
  · rw [hhandle]
    simp only [send_policy_ack, Agent.send, snprintf_eq_self hfits, hsent]
  · rw [happ, decide_eq_true_eq]
    exact hrc.symm

/-- **Policy state.** In every sequence of deliveries each one keeps the policy state monotone and
together, and every policy frame is acknowledged as it was applied. -/
theorem policy_monotone_atomic (a : Agent C) (ds : List Delivery) :
    (∀ pre d post, ds = pre ++ d :: post → AtomicStep (run deliver a pre) d) ∧
      a.policy_epoch ≤ (run deliver a ds).policy_epoch ∧
      ∀ w (b : Agent C) (m : Message), m.frame.type = RpcMsg.POLICY_SET.id → AcksApplied w b m := by
  refine ⟨fun pre d post _ => atomicStep, ?_, fun w b m hm => acksApplied w b hm⟩
  induction ds generalizing a with
  | nil => exact UInt64.le_refl _
  | cons d ds ih => exact UInt64.le_trans atomicStep.mono (ih (deliver a d))

end Retrace.Supervisor
