import Retrace.Backends.Ptrace

/-!
# Results land on their own call

While a call is pending the frame holds what was decided at its entry, so a run does at every stop what the
decisions ask for.
-/

namespace Retrace.Ptrace

variable {t : Bool × Option Int} {s : Frame × Int} {arch : Arch} {stops : List Stop}

def Held (s : Frame × Int) (t : Bool × Option Int) : Prop :=
  s.1.skip_real = !t.1 ∧ s.1.exit_override = false ∧
    (s.2 = t.2.getD PTRACE_RET_DEFERRED ∧ (t.1 = false → t.2.isSome))

/-- The frame follows the decision action by action. -/
theorem held_run (actions : List Action) (h : Held s t) :
    Held (actions.foldl run_action s) (actions.foldl decide_action t) := by
  induction actions generalizing s t with
  | nil => exact h
  | cons a actions ih =>
    refine ih ?_
    obtain ⟨hskip, hover, hret, hsome⟩ := h
    cases a with
    | call_real => exact ⟨rfl, hover, rfl, fun h => by cases h⟩
    | modify_return value => exact ⟨hskip, hover, rfl, fun _ => rfl⟩

def Frame.exit? (frame : Frame) : Option Int := if frame.exit_override then some frame.exit_retval else none

/-- The value that a frame stands for behind the entry. -/
def Frame.value? (frame : Frame) : Option Int := if frame.skip_real then some frame.forced_retval else frame.exit?

theorem value_of_held (h : Held s t)
    (ht : t ≠ (true, some PTRACE_RET_DEFERRED)) : (ptrace_set_ret_val s.1 s.2 e).skip_real = !t.1 ∧
      (ptrace_set_ret_val s.1 s.2 e).value? = if t = (false, some (-1)) then some (-e) else t.2 := by
  obtain ⟨⟨skip, forced, override, retval⟩, ret⟩ := s
  obtain ⟨ran, value⟩ := t
  obtain ⟨hskip, hover, hret, hsome⟩ := h
  dsimp only at hskip hover hret
  subst hskip hover hret
  cases ran with
  | false =>
    obtain ⟨v, rfl⟩ := Option.isSome_iff_exists.mp (hsome rfl)
    by_cases hv : v = -1 <;> simp [ptrace_set_ret_val, Frame.value?, hv]
  | true =>
    cases value with
    | none => simp [ptrace_set_ret_val, Frame.value?, Frame.exit?]
    | some v =>
      have hv : v ≠ PTRACE_RET_DEFERRED := fun h => ht (by rw [h])
      simp [ptrace_set_ret_val, Frame.value?, Frame.exit?, hv]

theorem engine_frame (hd : decided d ≠ (true, some PTRACE_RET_DEFERRED)) :
    (retrace_engine_wrapper d).skip_real = !(decided d).1 ∧ (retrace_engine_wrapper d).value? = (decided d).2 := by
  cases d with
  | unknown => exact ⟨rfl, rfl⟩
  | no_real => exact ⟨rfl, rfl⟩
  | unscripted => exact ⟨rfl, rfl⟩
  | script actions ret_errno errno =>
    refine value_of_held (held_run actions ⟨rfl, rfl, rfl, fun _ => rfl⟩) fun h => hd ?_
    simp [decided, h]

/-- At an entry a denied call is replaced, and the frame keeps the value that was decided for its exit. -/
theorem entry_step (hd : decided d ≠ (true, some PTRACE_RET_DEFERRED)) (frame : Frame) :
    ∃ frame', trace_step arch ⟨false, frame⟩ (.entry d) = (⟨true, frame'⟩,
        if (decided d).1 then [.resume 0] else [.set_syscall_nr (getpid_number arch), .resume 0]) ∧
      frame'.exit? = (decided d).2 := by
  have hbenign : ¬ getpid_number arch < 0 := by cases arch <;> decide
  obtain ⟨hskip, hvalue⟩ := engine_frame hd
  rw [Frame.value?] at hvalue
  have hsyscall : (Stop.entry d).stopsig &&& 0x80 ≠ 0 := (by decide : 0x85 &&& 0x80 ≠ 0)
  simp only [trace_step, hsyscall, ne_eq, not_false_eq_true, and_self, if_true]
  cases hran : (decided d).1 with
  | false =>
    rw [hran, Bool.not_false] at hskip
    rw [if_pos hskip] at hvalue
    rw [if_pos (show (retrace_engine_wrapper (Stop.entry d).dispatch).skip_real = true ∧ _ from ⟨hskip, hbenign⟩)]
    exact ⟨_, rfl, hvalue ▸ rfl⟩
  | true =>
    rw [hran, Bool.not_true] at hskip
    rw [hskip] at hvalue
    rw [if_neg fun h => absurd (hskip.symm.trans h.1) Bool.false_ne_true]
    exact ⟨_, rfl, hvalue⟩

theorem signal_step (h : sig ≤ 64) (s : Loop) : trace_step arch s (.signal sig) = (s, [.resume sig]) := by
  have hbit : ∀ sig ≤ 64, sig &&& 0x80 = 0 := by decide
  simp [trace_step, Stop.stopsig, Stop.ptrace_event, hbit sig h]

theorem trace_loop_served {pending : Option Int} (halt : Alternates b stops)
    (hclear : Clear stops) (hpending : b = true → frame.exit? = pending) :
    trace_loop arch ⟨b, frame⟩ stops = served arch pending stops := by
  induction stops generalizing b frame pending with
  | nil => rfl
  | cons stop stops ih =>
    have hrest : Clear stops := fun d hd => hclear d (List.mem_cons_of_mem _ hd)
    cases stop with
    | entry d =>
      obtain ⟨rfl, halt⟩ := halt
      obtain ⟨frame', hstep, hexit⟩ := @entry_step arch d (hclear d (by simp)) frame
      rw [trace_loop, hstep, served, ih halt hrest fun _ => hexit]
    | exit d =>
      obtain ⟨rfl, halt⟩ := halt
      have hframe := hpending rfl
      rw [Frame.exit?] at hframe
      rw [served, trace_loop]
      have hsyscall : (Stop.exit d).stopsig &&& 0x80 ≠ 0 := (by decide : 0x85 &&& 0x80 ≠ 0)
      simp only [trace_step, hsyscall, ne_eq, not_false_eq_true, Bool.true_eq_false, and_false, if_false, if_true]
      split_ifs at hframe ⊢
      · rw [← hframe, @ih false _ none halt hrest fun h => by cases h]
        rfl
      · rw [← hframe, @ih false _ none halt hrest fun h => by cases h]
        rfl
    | exec =>
      rw [served, ← ih halt hrest hpending]
      rfl
    | signal sig =>
      obtain ⟨hsig, halt⟩ := halt
      rw [trace_loop, served, ← ih halt hrest hpending, signal_step hsig]

/-- In every run with alternating entries and exits, values are written where they were decided and denied calls
are replaced, if no script overrides with the value that stands for none. -/
theorem trace_loop_lands (arch : Arch) (stops : List Stop) (halt : Alternates false stops) (hclear : Clear stops) :
    trace_loop arch {} stops = served arch none stops :=
  trace_loop_served halt hclear fun h => by cases h

theorem trace_loop_lands_denied : trace_loop .x86_64 {}
    [.entry (.script [.modify_return (-1)] (some 13) 0), .signal 17, .exit .unknown, .entry .unscripted, .exec,
      .exit .unknown] =
    [[.set_syscall_nr 39, .resume 0], [.resume 17], [.set_retval (-13), .resume 0], [.resume 0], [.resume 0],
      [.resume 0]] :=
  trace_loop_lands .x86_64 _ (by simp [Alternates]) (by
    intro d hd
    simp only [List.mem_cons, List.not_mem_nil, Stop.entry.injEq, reduceCtorEq, or_false, false_or] at hd
    rcases hd with rfl | rfl <;> decide)

/-- An override of an allowed call with 2^52 + 1 is not written. -/
theorem deferred_override_dropped :
    Alternates false [.entry (.script [.call_real, .modify_return 4503599627370497] none 0), .exit .unknown] ∧
      decided (.script [.call_real, .modify_return 4503599627370497] none 0) = (true, some 4503599627370497) ∧
      trace_loop .x86_64 {}
          [.entry (.script [.call_real, .modify_return 4503599627370497] none 0), .exit .unknown] =
        [[.resume 0], [.resume 0]] := by
  refine ⟨by simp [Alternates], by decide, by decide⟩

end Retrace.Ptrace
