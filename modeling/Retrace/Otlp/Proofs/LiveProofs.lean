import Retrace.Otlp.Live

/-!
# The exporter is not used after the teardown

The counter is the number of emitters between its increment and its decrement. An emitter gets inside
only through an open door, so once the door is closed and the counter was seen at zero nobody is inside,
and nobody gets there. The tick thread is created by an emitter that is inside: what the teardown reads
of it behind the drain loop is final.
-/

namespace Retrace.Otlp

open Runs List

variable {d : Deinit} {pc : Emit} {i : Nat}

theorem Emit.counted_of_inside (h : pc.inside = true) : pc.counted = true := by
  cases pc <;> simp_all [Emit.counted, Emit.inside]

theorem emit_step_frame : (emit_step g ok pc).1.door_open = g.door_open ∧
    (emit_step g ok pc).1.exporter_freed = g.exporter_freed ∧
      (emit_step g ok pc).1.tracer_freed = g.tracer_freed := by
  fun_cases emit_step g ok pc <;> simp

theorem emit_step_busy (g : Live) (ok : Bool) (pc : Emit) :
    (emit_step g ok pc).1.emit_busy + pc.counted.toNat = g.emit_busy + (emit_step g ok pc).2.counted.toNat := by
  fun_cases emit_step g ok pc
  all_goals try split_ifs
  all_goals simp [Emit.counted]

theorem emit_step_inside (g : Live) (ok : Bool) (pc : Emit) (hpc : pc.inside = false)
    (hdoor : g.door_open = false) : (emit_step g ok pc).2.inside = false := by
  fun_cases emit_step g ok pc
  all_goals simp_all [Emit.inside]

theorem emit_step_threads (g : Live) (ok : Bool) (pc : Emit) (h : pc.creating = true → g.thread_spawned = true) :
    (emit_step g ok pc).2.creating.toNat + (emit_step g ok pc).1.threads.length + g.thread_spawned.toNat =
      pc.creating.toNat + g.threads.length + (emit_step g ok pc).1.thread_spawned.toNat := by
  fun_cases emit_step g ok pc
  all_goals try split_ifs
  all_goals simp_all [Emit.creating]
  all_goals omega

theorem emit_step_create (h : pc.inside = false) : (emit_step g ok pc).1.threads = g.threads := by
  fun_cases emit_step g ok pc
  all_goals simp_all [Emit.inside]

theorem tick_step_frame (g : Live) (pc : Tick) :
    (tick_step g pc).1 = { g with running := (tick_step g pc).1.running } := by
  cases pc <;> rfl

def Deinit.closed : Deinit → Bool
  | .start | .close | .left => false
  | _ => true

def Deinit.joined : Deinit → Bool
  | .start | .close | .drain _ | .stop | .decide | .join | .left => false
  | _ => true

theorem Deinit.drained_of_decided (h : d.decided = true) : d.drained = true := by
  cases d <;> simp_all [Deinit.decided, Deinit.drained]

theorem Deinit.drained_of_joined (h : d.joined = true) : d.drained = true := by
  cases d <;> simp_all [Deinit.joined, Deinit.drained]

theorem Deinit.closed_of_drained (h : d.drained = true) : d.closed = true := by
  cases d <;> simp_all [Deinit.drained, Deinit.closed]

theorem deinit_step_frame (g : Live) (d : Deinit) :
    (deinit_step g d).1.emit_busy = g.emit_busy ∧ (deinit_step g d).1.threads = g.threads ∧
    (deinit_step g d).1.thread_spawned = g.thread_spawned := by
  fun_cases deinit_step g d <;> simp

theorem deinit_step_closed (h : d.closed = true → g.door_open = false)
    (hd : (deinit_step g d).2.closed = true) : (deinit_step g d).1.door_open = false := by
  revert hd
  fun_cases deinit_step g d
  all_goals try split_ifs
  all_goals simp_all [Deinit.closed]

theorem deinit_step_drained (hd : (deinit_step g d).2.drained = true) : d.drained = true ∨ g.emit_busy = 0 := by
  revert hd
  fun_cases deinit_step g d
  all_goals try split_ifs
  all_goals simp_all [Deinit.drained]

theorem deinit_step_joined (hd : (deinit_step g d).2.joined = true) :
    d.joined = true ∨ g.thread_spawned = false ∨ g.threads[g.thread]? = some .ended := by
  revert hd
  fun_cases deinit_step g d
  all_goals try split_ifs
  all_goals simp_all [Deinit.joined]

theorem deinit_step_freed (hx : g.exporter_freed = true → d.joined = true)
    (ht : g.tracer_freed = true → d.joined = true) :
    ((deinit_step g d).1.exporter_freed = true → (deinit_step g d).2.joined = true) ∧
      ((deinit_step g d).1.tracer_freed = true → (deinit_step g d).2.joined = true) := by
  fun_cases deinit_step g d
  all_goals try split_ifs
  all_goals simp_all [Deinit.joined]

structure Inv (w : World) : Prop where
  busy : w.g.emit_busy = w.emitters.countP Emit.counted
  spawned : w.emitters.countP Emit.creating + w.g.threads.length = w.g.thread_spawned.toNat
  closed : w.deinit.closed = true → w.g.door_open = false
  drained : w.deinit.drained = true → w.emitters.countP Emit.inside = 0
  joined : w.deinit.joined = true → ∀ t ∈ w.g.threads, t = .ended
  exporter : w.g.exporter_freed = true → w.deinit.joined = true
  tracer : w.g.tracer_freed = true → w.deinit.joined = true

theorem Inv.not_inside (h : Inv w) (hd : w.deinit.drained = true)
    (hi : w.emitters[i]? = some pc) : pc.inside = false := by
  have := countP_eq_zero.mp (h.drained hd) pc (mem_of_getElem? hi)
  simpa using this

theorem Inv.threads_length (h : Inv w) : w.g.threads.length ≤ 1 := by
  have hs := h.spawned
  have := Bool.toNat_le w.g.thread_spawned
  omega

theorem Inv.call (h : Inv w) (i : Nat) (c : Call) : Inv (w.step (.call i c)) := by
  simp only [World.step]
  split
  · rename_i hi
    have hcounted := countP_set (p := Emit.counted) hi (.door c)
    have hcreating := countP_set (p := Emit.creating) hi (.door c)
    have hinside := countP_set (p := Emit.inside) hi (.door c)
    simp only [Emit.counted, Emit.creating, Emit.inside, Bool.toNat_false,
      Nat.add_zero] at hcounted hcreating hinside
    exact ⟨by rw [hcounted]; exact h.busy, by rw [hcreating]; exact h.spawned, h.closed,
      by rw [hinside]; exact h.drained, h.joined, h.exporter, h.tracer⟩
  · exact h

theorem Inv.emit (h : Inv w) (i : Nat) (ok : Bool) : Inv (w.step (.emit i ok)) := by
  simp only [World.step]
  split
  · rename_i pc hi
    obtain ⟨hdoor, hexporter, htracer⟩ := emit_step_frame
    have hcounted := countP_set (p := Emit.counted) hi (emit_step w.g ok pc).2
    have hcreating := countP_set (p := Emit.creating) hi (emit_step w.g ok pc).2
    have hinside := countP_set (p := Emit.inside) hi (emit_step w.g ok pc).2
    have hpc := toNat_le_countP (p := Emit.creating) hi
    have hbusy := h.busy
    have hspawned := h.spawned
    refine ⟨?_, ?_, ?_, ?_, ?_, ?_, ?_⟩
    · have := emit_step_busy w.g ok pc
      dsimp only
      omega
    · have := emit_step_threads w.g ok pc fun hc => by
        rw [hc, Bool.toNat_true] at hpc
        have : w.g.thread_spawned.toNat = 1 := by
          have := Bool.toNat_le w.g.thread_spawned
          omega
        simpa using this
      dsimp only
      omega
    · intro hd
      exact hdoor.trans (h.closed hd)
    · intro hd
      have hout := h.not_inside hd hi
      have hstay := emit_step_inside w.g ok pc hout (h.closed (Deinit.closed_of_drained hd))
      rw [hout, hstay] at hinside
      have := h.drained hd
      simp only [Bool.toNat_false, Nat.add_zero] at hinside
      exact hinside.trans this
    · intro hd
      have hout := h.not_inside (Deinit.drained_of_joined hd) hi
      show ∀ t ∈ (emit_step w.g ok pc).1.threads, _
      rw [emit_step_create hout]
      exact h.joined hd
    · intro hf
      exact h.exporter (hexporter ▸ hf)
    · intro hf
      exact h.tracer (htracer ▸ hf)
  · exact h

theorem Inv.tick (h : Inv w) (j : Nat) : Inv (w.step (.tick j)) := by
  simp only [World.step]
  split
  · rename_i pc hj
    rw [tick_step_frame]
    refine ⟨h.busy, ?_, h.closed, h.drained, ?_, h.exporter, h.tracer⟩
    · simpa using h.spawned
    · intro hd t ht
      have hended := h.joined hd pc (mem_of_getElem? hj)
      subst hended
      rcases mem_or_eq_of_mem_set ht with ht | rfl
      · exact h.joined hd t ht
      · rfl
  · exact h

theorem ended_of_getElem? {l : List Tick} (hl : l.length ≤ 1) (h : l[i]? = some .ended) : ∀ t ∈ l, t = .ended := by
  match l, hl with
  | [], _ => simp
  | [x], _ =>
    cases i with
    | zero => simpa using h
    | succ i => simp at h

theorem Inv.deinit (h : Inv w) : Inv (w.step .deinit) := by
  obtain ⟨hbusy, hthreads, hspawned⟩ := deinit_step_frame w.g w.deinit
  simp only [World.step]
  refine ⟨hbusy.trans h.busy, ?_, deinit_step_closed h.closed, ?_, ?_, ?_, ?_⟩
  · rw [hthreads, hspawned]
    exact h.spawned
  · intro hd
    rcases deinit_step_drained hd with hd | hzero
    · exact h.drained hd
    · have hcounted : w.emitters.countP Emit.counted = 0 := by
        have := h.busy
        omega
      refine Nat.le_zero.mp (hcounted ▸ countP_mono_left fun pc _ => Emit.counted_of_inside)
  · intro hd
    rw [hthreads]
    rcases deinit_step_joined hd with hd | hnone | hended
    · exact h.joined hd
    · have hs := h.spawned
      rw [hnone, Bool.toNat_false] at hs
      have hnil : w.g.threads = [] := length_eq_zero_iff.mp (by omega)
      simp [hnil]
    · exact ended_of_getElem? h.threads_length hended
  · exact (deinit_step_freed h.exporter h.tracer).1
  · exact (deinit_step_freed h.exporter h.tracer).2

/-- Every step of an emitter, of the tick thread and of the shutdown keeps the invariant. -/
theorem Inv.step (h : Inv w) (a : Act) : Inv (w.step a) := by
  cases a with
  | call i c => exact h.call i c
  | emit i ok => exact h.emit i ok
  | tick j => exact h.tick j
  | deinit => exact h.deinit

theorem inv_start (n : Nat) : Inv (World.start n) := by
  constructor <;> simp [World.start, Emit.counted, Emit.creating, Deinit.closed, Deinit.drained, Deinit.joined,
    countP_replicate]

theorem Inv.not_joined (h : Inv w) (hi : w.emitters[i]? = some pc)
    (hpc : pc.inside = true) : w.deinit.joined = false := by
  by_contra hd
  have := h.not_inside (Deinit.drained_of_joined (by simpa using hd)) hi
  rw [hpc] at this
  cases this

theorem Inv.touches_exporter (h : Inv w) {a : Act} (ha : w.touches_exporter a = true) :
    w.deinit.joined = false := by
  cases a with
  | emit i ok =>
    have hi : w.emitters[i]? = some .move := by simpa [World.touches_exporter] using ha
    exact h.not_joined hi rfl
  | tick j =>
    obtain ⟨pc, hj, hpc⟩ : ∃ pc, w.g.threads[j]? = some pc ∧ pc.touches = true := by
      simpa [World.touches_exporter, Option.any_eq_true] using ha
    by_contra hd
    have := h.joined (by simpa using hd) pc (mem_of_getElem? hj)
    subst this
    cases hpc
  | call i c => cases ha
  | deinit => cases ha

theorem Inv.touches_tracer (h : Inv w) {a : Act} (ha : w.touches_tracer a = true) : w.deinit.joined = false := by
  cases a with
  | emit i ok =>
    have hi : w.emitters[i]? = some .span := by simpa [World.touches_tracer] using ha
    exact h.not_joined hi rfl
  | tick j => cases ha
  | call i c => cases ha
  | deinit => cases ha

theorem Inv.no_create (h : Inv w) (hd : w.deinit.decided = true) (a : Act) :
    (w.step a).g.threads.length = w.g.threads.length := by
  cases a with
  | call i c =>
    simp only [World.step]
    split <;> rfl
  | emit i ok =>
    simp only [World.step]
    split
    · rename_i pc hi
      have hout := h.not_inside (Deinit.drained_of_decided hd) hi
      dsimp only
      rw [emit_step_create hout]
    · rfl
  | tick j =>
    simp only [World.step]
    split
    · simp
    · rfl
  | deinit =>
    have := (deinit_step_frame w.g w.deinit).2.1
    simp only [World.step]
    rw [this]

theorem Inv.safe (h : Inv w) : Safe w where
  exporter a ha := by
    by_contra hf
    have hj := h.exporter (by simpa using hf)
    rw [h.touches_exporter ha] at hj
    cases hj
  tracer a ha := by
    by_contra hf
    have hj := h.tracer (by simpa using hf)
    rw [h.touches_tracer ha] at hj
    cases hj
  one_tick := Nat.le_trans (length_filter_le _ _) h.threads_length
  no_create a hd := h.no_create hd a

/-- In every interleaving of any number of emitters, the tick thread and one teardown, nothing is used after
it was freed, at most one tick thread runs, and none is created once it was decided whether to join one. -/
theorem live_exporter_safe (n : Nat) (schedule : List Act) : Safe (run World.step (World.start n) schedule) :=
  (run_preserves Inv (fun _ a h => h.step a) (inv_start n) schedule).safe

/-- The tick thread ends and the teardown frees both objects, while an emitter is in front of the second
test of the door. -/
example :
    let w := run World.step (World.start 2)
      ([.call 0 (.json false), .call 1 (.event false)] ++ replicate 11 (.emit 0 true) ++ [.emit 1 true] ++
        replicate 4 .deinit ++ replicate 6 (.tick 0) ++ replicate 10 .deinit ++ [.emit 1 true])
    w.g.exporter_freed = true ∧ w.g.tracer_freed = true ∧ w.g.threads = [.ended] ∧ w.deinit = .returned ∧
      w.emitters = [.idle, .recheck (.event false)] := by
  decide

end Retrace.Otlp
