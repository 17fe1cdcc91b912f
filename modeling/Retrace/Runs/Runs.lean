import Mathlib.Data.List.Basic

/-!
# Runs of a transition system

A deterministic system is a function `step` from a state and an action to the next state. A run is a
list of actions; `Along` says that every step of a run meets a condition on the state it starts from and
on its action. The rule `run_invariant` is the induction over runs. When one thread of a list steps,
`countP_set` counts those in a phase.
-/

namespace Runs

variable {σ α : Type*}

def run (step : σ → α → σ) (s : σ) (as : List α) : σ := as.foldl step s

def Along (step : σ → α → σ) (ok : σ → α → Prop) : σ → List α → Prop
  | _, [] => True
  | s, a :: as => ok s a ∧ Along step ok (step s a) as

instance (step : σ → α → σ) (ok : σ → α → Prop) [∀ s a, Decidable (ok s a)] :
    (s : σ) → (as : List α) → Decidable (Along step ok s as)
  | _, [] => isTrue trivial
  | s, a :: as =>
    have := instDecidableAlong step ok (step s a) as
    inferInstanceAs (Decidable (ok s a ∧ Along step ok (step s a) as))

@[simp]
theorem run_nil (s : σ) : run step s [] = s := rfl

@[simp]
theorem run_cons (s : σ) (a : α) (as : List α) : run step s (a :: as) = run step (step s a) as := rfl

theorem run_append (s : σ) (as bs : List α) : run step s (as ++ bs) = run step (run step s as) bs := by
  simp [run]

@[simp]
theorem along_nil (s : σ) : Along step ok s [] := trivial

@[simp]
theorem along_cons (s : σ) (a : α) (as : List α) :
    Along step ok s (a :: as) ↔ ok s a ∧ Along step ok (step s a) as := Iff.rfl

theorem along_append (s : σ) (as bs : List α) :
    Along step ok s (as ++ bs) ↔ Along step ok s as ∧ Along step ok (run step s as) bs := by
  induction as generalizing s with
  | nil => simp
  | cons a as ih => simp [ih, and_assoc]

theorem along_of_forall (h : ∀ s, ∀ a ∈ as, ok s a) : Along step ok s as := by
  induction as generalizing s with
  | nil => trivial
  | cons a as ih => exact ⟨h s a List.mem_cons_self, ih fun s b hb => h s b (List.mem_cons_of_mem a hb)⟩

/-- The induction over runs: what every permitted step keeps holds at the end of a permitted run. -/
theorem run_invariant (Inv : σ → Prop) (hstep : ∀ s a, Inv s → ok s a → Inv (step s a)) (hs : Inv s)
    (has : Along step ok s as) : Inv (run step s as) := by
  induction as generalizing s with
  | nil => exact hs
  | cons a as ih => exact ih (hstep s a hs has.1) has.2

theorem run_preserves (Inv : σ → Prop) (hstep : ∀ s a, Inv s → Inv (step s a)) (hs : Inv s) (as : List α) :
    Inv (run step s as) := by
  induction as generalizing s with
  | nil => exact hs
  | cons a as ih => exact ih (hstep s a hs)

section

variable {l : List α} {i : Nat}

theorem countP_set (h : l[i]? = some a) (b : α) :
    (l.set i b).countP p + (p a).toNat = l.countP p + (p b).toNat := by
  induction l generalizing i with
  | nil => simp at h
  | cons x l ih =>
    cases i with
    | zero =>
      obtain rfl : x = a := by simpa using h
      cases hx : p x <;> cases hb : p b <;> simp [hx, hb]
    | succ i =>
      have := @ih i (by simpa using h)
      simp only [List.set_cons_succ, List.countP_cons]
      omega

theorem toNat_le_countP (h : l[i]? = some a) : (p a).toNat ≤ l.countP p := by
  cases hp : p a with
  | false => simp
  | true =>
    have : 0 < l.countP p := List.countP_pos_iff.mpr ⟨a, List.mem_of_getElem? h, hp⟩
    simpa using this

end

end Runs
