import Retrace.Enforce.Seccomp

/-!
# What the seccomp floor denies

Both jumps of the check of the architecture go to the next instruction, so the program answers for a foreign
architecture what it answers for the native one.
-/

namespace Retrace.Enforce

open CLib List

section

variable (d : SeccompData)

theorem bpf_run_load : bpf_run d (⟨0x20, jt, jf, k⟩ :: rest) a = (d.word k).bind (bpf_run d rest) := by
  rw [bpf_run, if_pos rfl]
  cases d.word k <;> rfl

theorem bpf_run_jeq :
    bpf_run d (⟨0x15, jt, jf, k⟩ :: rest) a = bpf_run d (rest.drop (if a = k then jt else jf).toNat) a := by
  rw [bpf_run]
  simp

theorem bpf_run_ret : bpf_run d (⟨0x06, jt, jf, k⟩ :: rest) a = some k := by
  rw [bpf_run]
  simp

end

section

variable {native : UInt32} {sc_names : List (Bytes × Int)} {stale : Nat → UInt8 × UInt8}

theorem listed_cons {deny : List Bytes} : Listed sc_names (name :: deny) nr ↔
      (0 ≤ sc_nr sc_names name ∧ UInt32.ofInt (sc_nr sc_names name) = nr) ∨ Listed sc_names deny nr := by
  simp [Listed]

theorem bpf_run_deny (d : SeccompData) (deny : List Bytes) (tail : List SockFilter) (a : UInt32) :
    (Listed sc_names deny a → bpf_run d (deny.flatMap (deny_entry sc_names) ++ tail) a =
      some (SECCOMP_RET_ERRNO ||| EPERM)) ∧
    (¬Listed sc_names deny a → bpf_run d (deny.flatMap (deny_entry sc_names) ++ tail) a = bpf_run d tail a) := by
  induction deny with
  | nil => exact ⟨fun h => absurd h (by simp [Listed]), fun _ => rfl⟩
  | cons name deny ih =>
    rw [listed_cons, flatMap_cons, append_assoc, deny_entry]
    by_cases hneg : sc_nr sc_names name < 0
    · simpa [hneg, not_le.2 hneg] using ih
    · rw [if_neg hneg, cons_append, cons_append, nil_append, bpf_run_jeq]
      by_cases ha : a = UInt32.ofInt (sc_nr sc_names name)
      · rw [if_pos ha, show (0 : UInt8).toNat = 0 from rfl, drop_zero, bpf_run_ret]
        exact ⟨fun _ => rfl, fun h => absurd (.inl ⟨not_lt.1 hneg, ha.symm⟩) h⟩
      · rw [if_neg ha, show (1 : UInt8).toNat = 1 from rfl, drop_one, tail_cons]
        simpa [Ne.symm ha] using ih

theorem bpf_run_filter (stale : Nat → UInt8 × UInt8) (deny : List Bytes) :
    (Listed sc_names deny d.nr → bpf_run d (seccomp_filter native sc_names stale deny) a =
      some (SECCOMP_RET_ERRNO ||| EPERM)) ∧
    (¬Listed sc_names deny d.nr → bpf_run d (seccomp_filter native sc_names stale deny) a =
      some SECCOMP_RET_ALLOW) := by
  have hload : bpf_run d (seccomp_filter native sc_names stale deny) a =
      bpf_run d (deny.flatMap (deny_entry sc_names) ++ [⟨0x06,
        (stale (3 + (deny.flatMap (deny_entry sc_names)).length)).1,
        (stale (3 + (deny.flatMap (deny_entry sc_names)).length)).2, SECCOMP_RET_ALLOW⟩]) d.nr := by
    simp only [seccomp_filter, cons_append, nil_append]
    rw [bpf_run_load, show d.word 4 = some d.arch from rfl, Option.bind_some, bpf_run_jeq]
    -- Both ways the next instruction loads the number.
    rw [ite_self, show (0 : UInt8).toNat = 0 from rfl, drop_zero, bpf_run_load,
      show d.word 0 = some d.nr from rfl, Option.bind_some]
  rw [hload]
  refine ⟨(bpf_run_deny d deny _ d.nr).1, fun h => ?_⟩
  rw [(bpf_run_deny d deny _ d.nr).2 h, bpf_run_ret]

theorem denies_list_iff (deny : List Bytes) :
    DeniesList native sc_names deny d (bpf_run d (seccomp_filter native sc_names stale deny) a) ↔
      d.arch = native ∨ Listed sc_names deny d.nr := by
  obtain ⟨hlisted, hother⟩ := bpf_run_filter stale deny
  constructor
  · intro h
    by_contra hnot
    obtain ⟨harch, hl⟩ := not_or.1 hnot
    exact h.foreign harch (hother hl)
  · intro h
    refine ⟨fun _ hl => hlisted hl, fun _ hl => hother hl, fun harch => ?_⟩
    rw [hlisted (h.resolve_left harch)]
    decide

theorem length_deny_entry (sc_names : List (Bytes × Int)) (name : Bytes) :
    (deny_entry sc_names name).length ≤ 2 := by
  unfold deny_entry
  dsimp only
  split_ifs <;> simp

theorem length_flatMap_deny (sc_names : List (Bytes × Int)) (deny : List Bytes) :
    (deny.flatMap (deny_entry sc_names)).length ≤ 2 * deny.length := by
  induction deny with
  | nil => simp
  | cons name deny ih =>
    have := length_deny_entry sc_names name
    rw [flatMap_cons, length_append, length_cons]
    omega

theorem seccomp_prog_eq (hn : spec.deny.length ≤ ENFORCE_SYSCALLS_MAX) :
    seccomp_prog native sc_names stale spec = seccomp_filter native sc_names stale spec.deny := by
  have hlen : (seccomp_filter native sc_names stale spec.deny).length < 65536 := by
    have := length_flatMap_deny sc_names spec.deny
    rw [ENFORCE_SYSCALLS_MAX] at hn
    simp only [seccomp_filter, length_append, length_cons, length_nil]
    omega
  rw [seccomp_prog, UInt16.toNat_ofNat', Nat.mod_eq_of_lt hlen, take_length]

theorem jumps_cons {p : List SockFilter}
    (hf : f.code = 0x15 → f.jt.toNat < p.length ∧ f.jf.toNat < p.length) (hp : JumpsInside p) :
    JumpsInside (f :: p) := by
  intro pre g rest hsplit hcode
  cases pre with
  | nil =>
    obtain ⟨rfl, rfl⟩ := List.cons.inj hsplit
    exact hf hcode
  | cons x pre => exact hp pre g rest (List.cons.inj hsplit).2 hcode

theorem jumps_deny {tail : List SockFilter} (htail : JumpsInside tail) (hne : 0 < tail.length)
    (deny : List Bytes) :
    JumpsInside (deny.flatMap (deny_entry sc_names) ++ tail) := by
  induction deny with
  | nil => exact htail
  | cons name deny ih =>
    rw [flatMap_cons, append_assoc, deny_entry]
    split_ifs with hneg
    · exact ih
    · refine jumps_cons (fun _ => ?_) (jumps_cons (fun h => absurd h (by decide)) ih)
      exact ⟨by simp, by simpa using by omega⟩

theorem jumps_filter (deny : List Bytes) : JumpsInside (seccomp_filter native sc_names stale deny) := by
  have hret : ∀ f : SockFilter, f.code = 0x06 → JumpsInside [f] := by
    intro f hf
    refine jumps_cons (fun h => ?_) fun pre g rest h => by simp at h
    rw [hf] at h
    exact absurd h (by decide)
  refine jumps_cons (fun h => absurd h (by decide)) (jumps_cons (fun _ => by simp) (jumps_cons ?_ ?_))
  · intro h
    exact absurd h (show ¬(0x20 : UInt16) = 0x15 by decide)
  · exact jumps_deny (hret _ rfl) (by simp) deny

/-- A spec with a deny list installs a program whose jumps stay inside it. On a system call it does what the floor
is for exactly when the architecture is the native one or the number is listed anyway. -/
theorem floor_denies_iff (native : UInt32) (sc_names : List (Bytes × Int)) (stale : Nat → UInt8 × UInt8)
    (spec : EnforceSpec) (hn : spec.deny.length ≤ ENFORCE_SYSCALLS_MAX) (hne : spec.deny ≠ []) :
    ∃ p, enforce_seccomp_apply native sc_names stale none none spec = (0, some p) ∧ JumpsInside p ∧
      ∀ d : SeccompData, DeniesList native sc_names spec.deny d (bpf_run d p 0) ↔
        d.arch = native ∨ Listed sc_names spec.deny d.nr := by
  refine ⟨seccomp_prog native sc_names stale spec, ?_, ?_, ?_⟩
  · simp [enforce_seccomp_apply, hne]
  · rw [seccomp_prog_eq hn]
    exact jumps_filter spec.deny
  · intro d
    rw [seccomp_prog_eq hn]
    exact denies_list_iff spec.deny

end

def socketSpec : EnforceSpec := { deny := [bytes "socket"] }

theorem floor_denies_socket : ∃ p, enforce_seccomp_apply AUDIT_ARCH_X86_64 [(bytes "socket", 41)]
    (fun _ => (0, 0)) none none socketSpec = (0, some p) ∧ JumpsInside p ∧
      ∀ d : SeccompData, DeniesList AUDIT_ARCH_X86_64 [(bytes "socket", 41)] [bytes "socket"] d (bpf_run d p 0) ↔
        d.arch = AUDIT_ARCH_X86_64 ∨ Listed [(bytes "socket", 41)] [bytes "socket"] d.nr :=
  floor_denies_iff _ _ _ socketSpec (by decide) (by decide)

/-- A call of a 32-bit program (the architecture 0x40000003) with a number that is not listed. -/
theorem foreign_call_allowed :
    ∃ p, enforce_seccomp_apply AUDIT_ARCH_X86_64 [(bytes "socket", 41)] (fun _ => (0, 0)) none none socketSpec =
      (0, some p) ∧ bpf_run ⟨359, 0x40000003⟩ p 0 = some SECCOMP_RET_ALLOW := by
  refine ⟨seccomp_prog AUDIT_ARCH_X86_64 [(bytes "socket", 41)] (fun _ => (0, 0)) socketSpec, rfl, ?_⟩
  rw [seccomp_prog_eq (by decide)]
  refine (bpf_run_filter _ _).2 ?_
  simp only [Listed, socketSpec, mem_singleton, exists_eq_left]
  decide

end Retrace.Enforce
