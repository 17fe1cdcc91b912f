import Retrace.Daemon.Delivery
import Retrace.Json.Proofs.SerializeProofs
import Retrace.Supervisor.Proofs.AgentProofs
import Retrace.Supervisor.Proofs.ChunkProofs

/-!
# Which policies reach the agents

A policy reaches the agents exactly when it is shorter than the agent's copy of a payload. The cap on
the policy file is below that; a controller can push a longer one, which the agent cuts, or which
costs it the connection.
-/

namespace Retrace.Retraced

open CLib Parson Rpc Supervisor List Option

variable {blob text : Bytes} {c : Ctl}

theorem write_frame_eq (h : payload.length ≤ RETRACE_RPC_PAYLOAD_MAX) : write_frame type payload =
      (⟨⟨RETRACE_RPC_VERSION, type.id, UInt32.ofNat payload.length⟩, payload⟩ : Message).wire := by
  have hlen : (UInt32.ofNat payload.length).toNat = payload.length := by
    rw [UInt32.toNat_ofNat']
    exact Nat.mod_eq_of_lt (lt_of_le_of_lt h (by decide))
  have hsize : ∀ fr : RpcFrame,
      (header fr ++ payload).length = RETRACE_RPC_HEADER_SZ + payload.length := fun fr => by
    rw [length_append, header_length, RETRACE_RPC_HEADER_SZ]
  simp only [write_frame, retrace_rpc_frame_encode, hlen, not_lt.mpr h, if_false, lt_irrefl,
    reduceCtorEq, and_false,
    getD_some, take_length, memcpy, take_zero, nil_append, Nat.zero_add, hsize,
    drop_replicate, Nat.sub_self, replicate_zero, append_nil, Message.wire]

theorem policyMessage_ok (h : blob.length ≤ RETRACE_RPC_PAYLOAD_MAX) : (policyMessage blob).Ok := by
  refine ⟨?_, h⟩
  show blob.length = (UInt32.ofNat blob.length).toNat
  rw [UInt32.toNat_ofNat']
  exact (Nat.mod_eq_of_lt (lt_of_le_of_lt h (by decide))).symm

theorem policyMessage_wire_length : (policyMessage blob).wire.length = RETRACE_RPC_HEADER_SZ + blob.length := by
  rw [Message.wire, length_append, header_length, RETRACE_RPC_HEADER_SZ, policyMessage]

theorem retraced_policy_load_text (h : retraced_policy_load text = some (blob, epoch)) : blob = text := by
  simp only [retraced_policy_load, bind_eq_bind, bind_eq_some_iff, some.injEq, Prod.mk.injEq] at h
  obtain ⟨_, _, _, _, rfl, _⟩ := h
  rfl

theorem not_mem_zero_request (h : json_object_get_string (request line) name = some s) : 0 ∉ s := by
  unfold request at h
  cases hv : json_parse_string line with
  | none => simp [hv, json_object_get_string, json_object_get_value] at h
  | some v =>
    rw [hv, bind_some] at h
    cases v with
    | object o => exact not_mem_zero_get_string (wellFormed_json_parse hv) h
    | _ => simp [json_value_get_object, json_object_get_string, json_object_get_value] at h

theorem not_repliesOk_ctl_reply (h : ¬bytes "\x7b\"ok\":1" <+: snprintf 1024 text) :
    ¬RepliesOk (ctl_reply text) := by
  rintro ⟨line, hmem, hok⟩
  unfold ctl_reply at hmem
  split_ifs at hmem
  · simp at hmem
  · rw [mem_singleton, Effect.reply.injEq] at hmem
    subst hmem
    exact h hok

theorem push_ok (h : RepliesOk (verb_policy_push c o).2) :
    ∃ blob epoch, json_object_get_string o (bytes "blob") = some blob ∧
      retraced_policy_load blob = some (blob, epoch) ∧
      (verb_policy_push c o).1 =
        { c with policy_blob := some blob, policy_epoch := epoch, frozen := false, thaw_blob := some blob } := by
  unfold verb_policy_push at h ⊢
  cases hget : json_object_get_string o (bytes "blob") with
  | none =>
    simp only [hget] at h
    exact absurd h (not_repliesOk_ctl_reply (by decide))
  | some blob =>
    simp only [hget] at h ⊢
    cases hload : retraced_policy_load blob with
    | none =>
      simp only [hload] at h
      exact absurd h (not_repliesOk_ctl_reply (by decide))
    | some r =>
      obtain ⟨text, epoch⟩ := r
      obtain rfl := retraced_policy_load_text hload
      exact ⟨text, epoch, rfl, hload, rfl⟩

theorem load_policy_some (h : load_policy c content = some c') :
    ∃ epoch, content.length ≤ POLICY_MAX_BYTES ∧ retraced_policy_load (cstr content) = some (cstr content, epoch) ∧
      c' = { c with policy_blob := some (cstr content), policy_epoch := epoch } := by
  unfold load_policy at h
  split_ifs at h with hsize
  split at h
  · cases h
  · next blob epoch hload =>
    cases h
    obtain rfl := retraced_policy_load_text hload
    exact ⟨epoch, by omega, hload, rfl⟩

theorem Accepted.not_mem_zero (h : Accepted blob) : 0 ∉ blob := by
  cases h with
  | pushed hok hblob =>
    obtain ⟨text, epoch, hget, -, hc⟩ := push_ok hok
    rw [hc] at hblob
    cases hblob
    exact not_mem_zero_request hget
  | loaded hok hblob =>
    obtain ⟨epoch, -, -, rfl⟩ := load_policy_some hok
    cases hblob
    exact not_mem_zero_cstr _

theorem copied_iff (h : 0 ∉ blob) : frame_payload blob 4096 = blob ↔ blob.length < 4096 := by
  constructor
  · intro hcopy
    have hlen := congrArg List.length hcopy
    have := cstr_length_le (blob.take (4096 - 1))
    rw [frame_payload] at hlen
    rw [hlen, length_take] at this
    omega
  · intro hlt
    rw [frame_payload, take_of_length_le (by omega), cstr_eq_self h]

theorem answered (C : Crypto) (w : AgentWorld) (a : Agent C) (blob : Bytes) :
    ∃ ack, (handle_frame w a (policyMessage blob)).sent =
      a.sent ++ [(RpcMsg.POLICY_ACK, ack, send_frame .POLICY_ACK ack w.send_ret)] := by
  obtain ⟨reason, applied, ack, -, hsent, -⟩ := acksApplied w a (m := policyMessage blob) rfl
  exact ⟨ack, hsent⟩

theorem reaches_of_short (h : 0 ∉ blob) (hlt : blob.length < 4096) : Reaches blob := by
  have hmax : blob.length ≤ RETRACE_RPC_PAYLOAD_MAX := by
    rw [RETRACE_RPC_PAYLOAD_MAX]
    omega
  refine ⟨?_, (copied_iff h).mpr hlt, fun C w a => answered C w a blob⟩
  intro before b ns hbefore hns hlen
  have hstream : before.flatMap Message.wire ++ write_frame .POLICY_SET blob =
      (before ++ [policyMessage blob]).flatMap Message.wire := by
    rw [write_frame_eq hmax, flatMap_append]
    simp [policyMessage]
  rw [hstream] at hlen ⊢
  refine agent_stream_fits ?_ ?_ b hns hlen
  · intro m hm
    rcases mem_append.mp hm with hm | hm
    · exact (hbefore m hm).1
    · rw [mem_singleton.mp hm]
      exact policyMessage_ok hmax
  · intro m hm
    rcases mem_append.mp hm with hm | hm
    · exact (hbefore m hm).2
    · rw [mem_singleton.mp hm, policyMessage_wire_length]
      exact Nat.add_le_add_left hlt.le _

/-- **Delivery.** A policy the daemon accepts reaches the agents exactly when it is shorter than 4096
bytes, as every policy loaded at boot is. One that is longer than 4096 bytes drops the connection. -/
theorem policy_reaches_iff {blob : Bytes} (h : Accepted blob) :
    (Reaches blob ↔ blob.length < 4096) ∧
      (∀ c content c', load_policy c content = some c' → c'.policy_blob = some blob → Reaches blob) ∧
      (4096 < blob.length → blob.length ≤ RETRACE_RPC_PAYLOAD_MAX →
        ∀ (b : RecvBuffer AGENT_BUF_SIZE) (ns : List Nat), 0 ∉ ns → AGENT_BUF_SIZE < ns.length →
          (agent_stream b (write_frame .POLICY_SET blob) ns).handed = [] ∧
            (agent_stream b (write_frame .POLICY_SET blob) ns).conn = none) := by
  have hzero := h.not_mem_zero
  refine ⟨⟨fun hr => (copied_iff hzero).mp hr.copied, reaches_of_short hzero⟩, ?_, ?_⟩
  · intro c content c' hload hblob
    obtain ⟨epoch, hsize, -, rfl⟩ := load_policy_some hload
    cases hblob
    have := cstr_length_le content
    rw [POLICY_MAX_BYTES] at hsize
    exact reaches_of_short hzero (by omega)
  · intro hlong hmax b ns hns hlen
    have hwire : write_frame .POLICY_SET blob = (policyMessage blob).wire := write_frame_eq hmax
    rw [hwire]
    refine agent_stream_drops b (policyMessage_ok hmax) ?_ hns hlen
    rw [policyMessage_wire_length]
    exact Nat.add_lt_add_left hlong _

def emptyPolicy : JsonValue :=
  .object [(bytes "policy", .object [(bytes "epoch", .number 1)]), (bytes "intercept_scripts", .array [])]

def paddedPolicy (n : Nat) : Bytes := json_serialize_to_string emptyPolicy ++ replicate n 32

theorem wellFormed_emptyPolicy : WellFormed IsNormal (MAX_NESTING + 1) emptyPolicy :=
  .pair (by decide) (by decide) (by decide) (.member (by decide) (.number isNormal_one)) (.array (by simp))

theorem json_parse_paddedPolicy (n : Nat) : json_parse_string (paddedPolicy n) = some emptyPolicy := by
  refine json_parse_serialize_append wellFormed_emptyPolicy ?_
  cases n with
  | zero => simp [NumberEnds]
  | succ n => simp [NumberEnds, replicate_succ, numChar, isdigit, tolower]

theorem retraced_policy_load_padded :
    retraced_policy_load (paddedPolicy n) = some (paddedPolicy n, doubleToLong 1) := by
  have hdoc : policy_document (paddedPolicy n) = some (json_value_get_object emptyPolicy) := by
    rw [policy_document, json_parse_paddedPolicy]
    rfl
  have hcheck : policy_check (json_value_get_object emptyPolicy) = some (doubleToLong 1) := by decide
  rw [retraced_policy_load, hdoc]
  simp only [bind_eq_bind, bind_some, hcheck]

theorem not_mem_zero_paddedPolicy : 0 ∉ paddedPolicy n := by
  have hempty : 0 ∉ json_serialize_to_string emptyPolicy := by decide_cbv
  simp [paddedPolicy, hempty, mem_replicate]

def pushLine (blob : Bytes) : Bytes := json_serialize_to_string (.object [(bytes "blob", .string blob)])

theorem request_pushLine (h : 0 ∉ blob) : request (pushLine blob) = some [(bytes "blob", .string blob)] := by
  have hwf : WellFormed IsNormal (MAX_NESTING + 1) (.object [(bytes "blob", .string blob)]) :=
    .member (by decide) (.string h)
  rw [request, pushLine, json_parse_serialize hwf]
  rfl

theorem repliesOk_policy_installed (c : Ctl) (blob : Bytes) (epoch : Int64) (name : Bytes) (cap : Nat) :
    RepliesOk (policy_installed c blob epoch name cap) := by
  generalize hn : (retraced_ctl_push_policy c blob).length = n
  refine ⟨snprintf 1024 (policy_reply epoch n), ?_, ?_⟩
  · simp only [policy_installed, hn, ctl_reply]
    rw [if_neg (by simp [policy_reply, bytes])]
    simp
  · have hpre : bytes "\x7b\"ok\":1" <+: policy_reply epoch n := by
      simp only [policy_reply, append_assoc]
      exact List.IsPrefix.trans (by decide) (prefix_append _ _)
    exact prefix_take_iff.mpr ⟨hpre, by decide⟩

theorem get_blob_pushLine (n : Nat) :
    json_object_get_string (request (pushLine (paddedPolicy n))) (bytes "blob") = some (paddedPolicy n) := by
  rw [request_pushLine not_mem_zero_paddedPolicy]
  rfl

theorem repliesOk_push_padded (c : Ctl) (n : Nat) :
    RepliesOk (verb_policy_push c (request (pushLine (paddedPolicy n)))).2 := by
  simp only [verb_policy_push, get_blob_pushLine, retraced_policy_load_padded]
  exact repliesOk_policy_installed _ _ _ _ _

theorem verb_policy_push_padded (c : Ctl) (n : Nat) :
    (verb_policy_push c (request (pushLine (paddedPolicy n)))).1 =
      { c with
        policy_blob := some (paddedPolicy n), policy_epoch := doubleToLong 1
        frozen := false, thaw_blob := some (paddedPolicy n) } := by
  simp only [verb_policy_push, get_blob_pushLine, retraced_policy_load_padded, retraced_ctl_set_policy]

theorem accepted_paddedPolicy : Accepted (paddedPolicy n) := by
  refine .pushed (repliesOk_push_padded { conns := [], scopes := 0 } n) ?_
  rw [verb_policy_push_padded]

/-- A short policy that was pushed reaches the agents. -/
theorem policy_reaches_short : Reaches (paddedPolicy 0) :=
  (policy_reaches_iff accepted_paddedPolicy).1.mpr (by decide_cbv)

/-- A policy with 4096 blanks behind it is accepted and does not reach the agents. -/
theorem not_reaches_padded : Accepted (paddedPolicy 4096) ∧ ¬Reaches (paddedPolicy 4096) := by
  refine ⟨accepted_paddedPolicy, fun h => ?_⟩
  have hlt := (copied_iff not_mem_zero_paddedPolicy).mp h.copied
  rw [paddedPolicy, length_append, length_replicate] at hlt
  omega

end Retrace.Retraced
