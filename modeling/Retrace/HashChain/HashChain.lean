import Mathlib.Data.List.Basic
import Mathlib.Data.List.TakeWhile
import Mathlib.Tactic

/-!
# Hash chains

A chain is a list of lines, each carrying the link of the line in front of it; the link of a line is
computed from the line and the link in front of it. `headOf` is the link a list of lines ends with,
`Linked` says that every line carries the link it should, and `walk` is the verifier: it reads lines
as long as they carry the running head and reports why it stopped.
-/

namespace HashChain

open List

variable {α β : Type*}

def headOf (link : β → α → α) (h : α) (ls : List β) : α := ls.foldl (fun h l => link l h) h

def Linked (ok : α → β → Prop) (link : β → α → α) : α → List β → Prop
  | _, [] => True
  | h, l :: ls => ok h l ∧ Linked ok link (link l h) ls

inductive Seen (α : Type*) where
  /-- Nothing to be read: the verifier stops here without complaint. -/
  | stop
  | missing
  /-- A line that carries the link `v`. -/
  | link (v : α)
  deriving DecidableEq

inductive Exit where
  | eof
  | stopped
  | missing
  | mismatch
  deriving DecidableEq, Repr

structure Walk (α β : Type*) where
  accepted : List β
  head : α
  exit : Exit

def walk [DecidableEq α] (see : β → Seen α) (link : β → α → α) : α → List β → Walk α β
  | h, [] => ⟨[], h, .eof⟩
  | h, l :: ls =>
    match see l with
    | .stop => ⟨[], h, .stopped⟩
    | .missing => ⟨[], h, .missing⟩
    | .link v =>
      if v = h then
        let w := walk see link (link l h) ls
        { w with accepted := l :: w.accepted }
      else ⟨[], h, .mismatch⟩

def Seen.isStop : Seen α → Bool
  | .stop => true
  | _ => false

def readable (see : β → Seen α) (ls : List β) : List β := ls.takeWhile fun l => !(see l).isStop

def unread (see : β → Seen α) (ls : List β) : List β := ls.dropWhile fun l => !(see l).isStop

variable {h : α} {l : β}

@[simp]
theorem headOf_nil (h : α) : headOf link h [] = h := rfl

@[simp]
theorem headOf_cons (h : α) (l : β) (ls : List β) :
    headOf link h (l :: ls) = headOf link (link l h) ls := rfl

theorem headOf_append (h : α) (ls ls' : List β) :
    headOf link h (ls ++ ls') = headOf link (headOf link h ls) ls' := by
  simp [headOf]

@[simp]
theorem linked_nil (h : α) : Linked ok link h [] := trivial

@[simp]
theorem linked_cons (h : α) (l : β) (ls : List β) :
    Linked ok link h (l :: ls) ↔ ok h l ∧ Linked ok link (link l h) ls := Iff.rfl

theorem linked_append (h : α) (ls ls' : List β) : Linked ok link h (ls ++ ls') ↔
      Linked ok link h ls ∧ Linked ok link (headOf link h ls) ls' := by
  induction ls generalizing h with
  | nil => simp
  | cons l ls ih => simp [ih, and_assoc]

theorem Linked.imp (himp : ∀ h l, ok h l → ok' h l) (hl : Linked ok link h ls) : Linked ok' link h ls := by
  induction ls generalizing h with
  | nil => trivial
  | cons l ls ih => exact ⟨himp _ _ hl.1, ih hl.2⟩

theorem Linked.take (hl : Linked ok link h ls) (k : Nat) : Linked ok link h (ls.take k) := by
  rw [← take_append_drop k ls, linked_append] at hl
  exact hl.1

theorem Linked.ok_of_mem (hl : Linked ok link h ls) (hm : l ∈ ls) : ∃ h', ok h' l := by
  induction ls generalizing h with
  | nil => cases hm
  | cons a ls ih =>
    rcases mem_cons.mp hm with rfl | hm
    · exact ⟨h, hl.1⟩
    · exact ih hl.2 hm

def Carries (see : β → Seen α) (h : α) (l : β) : Prop := see l = .link h

theorem isStop_eq_true {s : Seen α} : s.isStop = true ↔ s = .stop := by
  cases s <;> simp [Seen.isStop]

theorem readable_append_unread (see : β → Seen α) (ls : List β) : readable see ls ++ unread see ls = ls :=
  takeWhile_append_dropWhile

theorem see_ne_stop_of_mem_readable (hl : l ∈ readable see ls) : see l ≠ .stop := by
  have := mem_takeWhile_imp hl
  intro h
  simp [h, Seen.isStop] at this

theorem see_head_unread (h : unread see ls = l :: rest) : see l = .stop := by
  have hhead := head?_dropWhile_not (fun l => !(see l).isStop) ls
  rw [unread] at h
  rw [h] at hhead
  exact isStop_eq_true.mp (by simpa using hhead)

theorem readable_append_stop (hl : Linked (Carries see) link h ls)
    (hstop : see l = .stop) (rest : List β) : readable see (ls ++ l :: rest) = ls := by
  induction ls generalizing h with
  | nil => simp [readable, hstop, Seen.isStop]
  | cons a ls ih =>
    have ha : see a = .link h := hl.1
    rw [readable, cons_append, takeWhile_cons_of_pos (by simp [ha, Seen.isStop])]
    exact congrArg (a :: ·) (ih hl.2)

theorem readable_linked (hl : Linked (Carries see) link h ls) : readable see ls = ls := by
  refine takeWhile_eq_self_iff.mpr fun l hm => ?_
  obtain ⟨h', hh⟩ := hl.ok_of_mem hm
  simp [show see l = .link h' from hh, Seen.isStop]

section

variable [DecidableEq α]

@[simp]
theorem walk_nil (h : α) : walk see link h [] = ⟨[], h, .eof⟩ := rfl

theorem walk_cons_carries (hl : see l = .link h) (ls : List β) : walk see link h (l :: ls) =
      { walk see link (link l h) ls with accepted := l :: (walk see link (link l h) ls).accepted } := by
  simp [walk, hl]

theorem walk_cons_stop (hl : see l = .stop) (ls : List β) : walk see link h (l :: ls) = ⟨[], h, .stopped⟩ := by
  simp [walk, hl]

theorem walk_cons_missing (hl : see l = .missing) (ls : List β) :
    walk see link h (l :: ls) = ⟨[], h, .missing⟩ := by
  simp [walk, hl]

theorem walk_cons_mismatch (hl : see l = .link v) (hv : v ≠ h) (ls : List β) :
    walk see link h (l :: ls) = ⟨[], h, .mismatch⟩ := by
  simp [walk, hl, hv]

theorem walk_append (hl : Linked (Carries see) link h ls) (rest : List β) : walk see link h (ls ++ rest) =
      { walk see link (headOf link h ls) rest with
        accepted := ls ++ (walk see link (headOf link h ls) rest).accepted } := by
  induction ls generalizing h with
  | nil => simp
  | cons l ls ih => rw [cons_append, walk_cons_carries hl.1, ih hl.2]; rfl

theorem walk_linked (hl : Linked (Carries see) link h ls) : walk see link h ls = ⟨ls, headOf link h ls, .eof⟩ := by
  have := walk_append hl []
  simpa using this

theorem walk_accepted (see : β → Seen α) (link : β → α → α) (h : α) (ls : List β) :
    Linked (Carries see) link h (walk see link h ls).accepted ∧
      (walk see link h ls).head = headOf link h (walk see link h ls).accepted := by
  induction ls generalizing h with
  | nil => simp
  | cons l ls ih =>
    cases hs : see l with
    | stop => simp [walk_cons_stop hs]
    | missing => simp [walk_cons_missing hs]
    | link v =>
      by_cases hv : v = h
      · subst hv
        rw [walk_cons_carries hs]
        exact ⟨⟨hs, (ih _).1⟩, (ih _).2⟩
      · simp [walk_cons_mismatch hs hv]

theorem walk_split (see : β → Seen α) (link : β → α → α) (h : α) (ls : List β) :
    ((walk see link h ls).exit = .eof ∧ ls = (walk see link h ls).accepted) ∨
      ∃ l rest, ls = (walk see link h ls).accepted ++ l :: rest ∧
        (((walk see link h ls).exit = .stopped ∧ see l = .stop) ∨
         ((walk see link h ls).exit = .missing ∧ see l = .missing) ∨ ((walk see link h ls).exit = .mismatch ∧
            ∃ v, see l = .link v ∧ v ≠ (walk see link h ls).head)) := by
  induction ls generalizing h with
  | nil => simp
  | cons l ls ih =>
    cases hs : see l with
    | stop => right; exact ⟨l, ls, by simp [walk_cons_stop hs, hs]⟩
    | missing => right; exact ⟨l, ls, by simp [walk_cons_missing hs, hs]⟩
    | link v =>
      by_cases hv : v = h
      · subst hv
        rw [walk_cons_carries hs]
        rcases ih (link l v) with ⟨he, hl⟩ | ⟨l', rest, hl, hcase⟩
        · left; exact ⟨he, by simpa using hl⟩
        · right; exact ⟨l', rest, by simpa using hl, hcase⟩
      · right; exact ⟨l, ls, by simp [walk_cons_mismatch hs hv, hs, hv]⟩

theorem walk_exit_eof_iff (h : α) (ls : List β) :
    (walk see link h ls).exit = .eof ↔ Linked (Carries see) link h ls := by
  constructor
  · intro hex
    obtain ⟨hacc, -⟩ := walk_accepted see link h ls
    rcases walk_split see link h ls with ⟨-, hls⟩ | ⟨l, rest, -, hcase⟩
    · rw [← hls] at hacc
      exact hacc
    · rcases hcase with ⟨he, -⟩ | ⟨he, -⟩ | ⟨he, -⟩ <;> rw [hex] at he <;> cases he
  · intro hl
    rw [walk_linked hl]

theorem walk_of_readable (hl : Linked (Carries see) link h (readable see ls)) :
    walk see link h ls = ⟨readable see ls, headOf link h (readable see ls),
      if unread see ls = [] then .eof else .stopped⟩ := by
  have hw := walk_append hl (unread see ls)
  rw [readable_append_unread] at hw
  rw [hw]
  cases hu : unread see ls with
  | nil => simp
  | cons l rest => simp [walk_cons_stop (see_head_unread hu)]

theorem walk_exit_iff (h : α) (ls : List β) :
    ((walk see link h ls).exit = .eof ∨ (walk see link h ls).exit = .stopped) ↔
      Linked (Carries see) link h (readable see ls) := by
  constructor
  · intro hex
    obtain ⟨hacc, -⟩ := walk_accepted see link h ls
    rcases walk_split see link h ls with ⟨-, hls⟩ | ⟨l, rest, hls, hcase⟩
    · rw [hls, readable_linked hacc]
      exact hacc
    · have hstop : see l = .stop := by
        rcases hcase with ⟨-, hs⟩ | ⟨he, -⟩ | ⟨he, -⟩
        · exact hs
        · simp [he] at hex
        · simp [he] at hex
      rw [hls, readable_append_stop hacc hstop]
      exact hacc
  · intro hl
    rw [walk_of_readable hl]
    by_cases hu : unread see ls = []
    · simp [hu]
    · simp [hu]

end

end HashChain
