import Retrace.Daemon.Loop
import Retrace.Daemon.Proofs.RegistryProofs
import Retrace.Journal.Proofs.MarkerProofs

/-!
# Minted ids

An id is minted from the pid of a hello and the counter of ids, which starts from 0 at every boot. It is
never cut, and it tells the pid and the counter; so the ids are as fresh as these pairs are.
-/

namespace Retrace.Retraced

open CLib Parson Rpc Runs List

attribute [local irreducible] retraced_journal_line_hash journal_line retraced_journal_event

theorem fmtNat_injective : Function.Injective fmtNat := by
  intro m n h
  rw [← digitsVal_fmtNat m, ← digitsVal_fmtNat n, h]

theorem fmtInt_injective : Function.Injective fmtInt := by
  intro m n h
  have hparts : (decide (m < 0), fmtNat m.natAbs) = (decide (n < 0), fmtNat n.natAbs) := by
    rw [← takeSign_fmtInt, ← takeSign_fmtInt, h]
  obtain ⟨hsign, hdigits⟩ := Prod.mk.inj hparts
  have hsign' : m < 0 ↔ n < 0 := decide_eq_decide.mp hsign
  have habs := fmtNat_injective hdigits
  omega

theorem dot_not_mem_fmtInt : 46 ∉ fmtInt n := by
  unfold fmtInt
  split_ifs
  · intro h
    rcases mem_cons.mp h with h | h
    · exact absurd h (by decide)
    · exact absurd (isdigit_of_mem_fmtNat h) (by decide)
  · exact fun h => absurd (isdigit_of_mem_fmtNat h) (by decide)

theorem minted_id_eq (pid : Int64) (counter : UInt64) :
    minted_id pid counter = bytes "boot." ++ (fmtInt pid.toInt ++ 46 :: fmtNat counter.toNat) := by
  have hpid := fmtInt_length_le pid
  have hcounter : (fmtNat counter.toNat).length ≤ 20 :=
    fmtNat_length_le (by norm_num) (counter.toNat_lt.trans (by norm_num))
  have hdot : bytes "." = [46] := by decide
  have hboot : (bytes "boot.").length = 5 := by decide
  have hmax : RETRACED_AGENT_ID_MAX = 96 := rfl
  rw [minted_id, snprintf_eq_self, hdot]
  · simp only [append_assoc, singleton_append]
  · rw [hdot]
    simp only [length_append, length_singleton]
    omega

theorem minted_id_injective : Function.Injective fun k : Int64 × UInt64 => minted_id k.1 (k.2 + 1) := by
  rintro ⟨pid, counter⟩ ⟨pid', counter'⟩ h
  dsimp only at h
  rw [minted_id_eq, minted_id_eq] at h
  have htail := append_cancel_left h
  -- The first point ends the pid.
  have hpid : fmtInt pid.toInt = fmtInt pid'.toInt := by
    have hcut : ∀ n t, (fmtInt n ++ 46 :: t).takeWhile (· ≠ 46) = fmtInt n := by
      intro n t
      rw [takeWhile_append_of_pos]
      · simp
      · intro c hc
        simpa using fun h : c = 46 => dot_not_mem_fmtInt (h ▸ hc)
    rw [← hcut pid.toInt (fmtNat (counter + 1).toNat), htail, hcut]
  rw [hpid] at htail
  have hcounter := fmtNat_injective (List.cons.inj (append_cancel_left htail)).2
  refine Prod.ext (Int64.toInt_inj.mp (fmtInt_injective hpid)) ?_
  have := UInt64.toNat_inj.mp hcounter
  simpa using this

theorem hello_bound_id (r : Registry)
    (h : retraced_registry_hello r none pid ppid session cmdline = (r', some k)) :
    (r'.agents.getD k {}).id = minted_id pid (r.id_counter + 1) := by
  rw [hello_eq] at h
  cases hfind : retraced_registry_find r (hello_id r none pid) with
  | some i =>
    simp only [hfind, Prod.mk.injEq, Option.some.injEq] at h
    obtain ⟨rfl, rfl⟩ := h
    obtain ⟨e, he, hid⟩ := find_eq_some hfind
    have hlive : ((r.mint none).modify i ({ · with state := .live })).agents[i]? =
        some { e with state := .live } := by
      rw [agents_modify, if_pos rfl, mint_agents, he]
      rfl
    rw [getD_eq_getElem?_getD, hlive]
    exact hid
  | none =>
    simp only [hfind] at h
    split_ifs at h
    · exact absurd (Prod.mk.inj h).2 (by simp)
    · simp only [Prod.mk.injEq, Option.some.injEq] at h
      obtain ⟨rfl, rfl⟩ := h
      rw [getD_eq_getElem?_getD, getElem?_concat_length]
      exact snprintf_eq_self (snprintf_length_lt (by decide) le_rfl _)

def Said.Minted : Said → Prop
  | .hello agent pid counter => agent = minted_id pid (counter + 1)
  | _ => True

theorem minted_said_hello : ∀ m ∈ said_hello d payload, m.Minted := by
  intro m hm
  unfold said_hello at hm
  split at hm
  · exact absurd hm not_mem_nil
  · dsimp only at hm
    split at hm
    · next hhello =>
      rw [mem_singleton.mp hm]
      exact hello_bound_id d.reg hhello
    · exact absurd hm not_mem_nil

theorem minted_said_frame : ∀ x ∈ said_frame s i env m es, x.Minted := by
  intro x hx
  unfold said_frame at hx
  dsimp only at hx
  split_ifs at hx
  · exact minted_said_hello x hx
  all_goals first
    | exact absurd hx not_mem_nil
    | (rw [mem_singleton.mp hx]; trivial)

def History.Minted (h : History) : Prop := ∀ x ∈ h.said, x.Minted

theorem said_next : (s.next x).said = s.said ∨
    ∃ i env m es, (s.next x).said = s.said ++ said_frame s i env m es := by
  unfold Running.next
  cases x with
  | frame i env m =>
    simp only [Running.step]
    split_ifs
    · exact .inl rfl
    · exact .inr ⟨i, env, m, _, rfl⟩
  | hangup i now =>
    simp only [Running.step]
    split_ifs <;> exact .inl rfl
  | invalid i =>
    simp only [Running.step]
    split_ifs <;> exact .inl rfl
  | _ => exact .inl rfl

theorem said_daemon_boot : (daemon_boot path w said cfg).said = said := by
  unfold daemon_boot
  split
  · rfl
  · split
    · rfl
    · simp only [History.said]
      split_ifs <;> rfl

/-- In every operation of the history the ids that are given are minted from the pid and the counter. -/
theorem History.Minted.step {h : History} (hm : h.Minted) (op : DaemonOp) : (h.step C path op).Minted := by
  cases h with
  | down w said =>
    cases op with
    | boot cfg =>
      intro x hx
      rw [History.step, said_daemon_boot] at hx
      exact hm x hx
    | _ => exact hm
  | up s =>
    cases op with
    | input x =>
      intro y hy
      rw [History.step, History.said] at hy
      rcases said_next with h | ⟨i, env, m, es, h⟩
      · rw [h] at hy
        exact hm y hy
      · rw [h, mem_append] at hy
        exact hy.elim (hm y) (minted_said_frame y)
    | stop e => exact hm
    | boot cfg => exact hm

theorem History.Minted.bound_ids {h : History} (hm : h.Minted) :
    h.bound_ids = h.mint_keys.map fun k => minted_id k.1 (k.2 + 1) := by
  unfold History.bound_ids History.mint_keys
  rw [map_filterMap]
  refine filterMap_congr fun x hx => ?_
  cases x with
  | hello agent pid counter => exact congrArg some (hm _ hx)
  | _ => rfl

/-- In every history of boots, inputs and ends, no two hellos are bound to entries with the same id exactly
if no two of them come with the same pid at the same count of ids. -/
theorem bound_ids_fresh_iff (C : Crypto) (path : Bytes) (w : World) (ops : List DaemonOp) :
    (run (History.step C path) (.down w []) ops).bound_ids.Nodup ↔
      (run (History.step C path) (.down w []) ops).mint_keys.Nodup := by
  have hm : (run (History.step C path) (.down w []) ops).Minted :=
    run_preserves History.Minted (fun _ op h => h.step op) (fun _ hx => absurd hx not_mem_nil) ops
  rw [hm.bound_ids]
  exact nodup_map_iff minted_id_injective

def agent_frame (type : RpcMsg) (payload : Bytes) : Message :=
  ⟨⟨RETRACE_RPC_VERSION, type.id, UInt32.ofNat payload.length⟩, payload⟩

def quiet_env : FrameEnv := ⟨0, 0, replicate 16 1, 0⟩

def boot_hello : List DaemonOp :=
  [.boot { opened_at := 0, nonce := [] }, .input (.accept 3),
    .input (.frame 0 quiet_env (agent_frame .HELLO (bytes "\x7b\"pid\":7\x7d"))),
    .input (.frame 0 quiet_env (agent_frame .EVENT (bytes "\x7b\"seq\":1\x7d")))]

/-- Process 7 says hello, and at the next boot another process 7 does: it is bound to the entry that the
journal brought back. -/
theorem not_bound_ids_fresh :
    ¬∀ (C : Crypto) (path : Bytes) (w : World) (ops : List DaemonOp),
      (run (History.step C path) (.down w []) ops).bound_ids.Nodup := by
  intro h
  have hids := h noCrypto (bytes "j") ⟨fun _ => none, []⟩ (boot_hello ++ .stop (.graceful 0 0 none) :: boot_hello)
  revert hids
  decide +kernel

end Retrace.Retraced
