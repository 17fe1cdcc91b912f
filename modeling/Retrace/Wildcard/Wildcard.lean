import Mathlib.Data.List.Basic
import Mathlib.Tactic

/-!
# Wildcard patterns

A pattern is a list of atoms: a star stands for any run of characters, another atom for one character that
has a property. The matcher goes through text and pattern once and returns only to the last star it has
seen. That is enough (`search_iff`): what an earlier star could still do, the last one can do too. A star
that the matcher meets at a character of `lit` takes this one only, and it does not return there.
-/

namespace Wildcard

open List

variable {α : Type*}

inductive Atom (α : Type*) where
  | star
  | one (p : α → Bool)

def Atom.isStar : Atom α → Bool
  | .star => true
  | .one _ => false

def Matches : List (Atom α) → List α → Prop
  | [], t => t = []
  | .star :: ps, t => ∃ v, v <:+ t ∧ Matches ps v
  | .one _ :: _, [] => False
  | .one p :: ps, c :: t => p c = true ∧ Matches ps t

/-- As `Matches`, but a star that begins at a character of `lit` takes exactly this one. -/
def MatchesBut (lit : α → Bool) : List (Atom α) → List α → Prop
  | [], t => t = []
  | .star :: ps, t => if t.head?.any lit then MatchesBut lit ps t.tail else ∃ v, v <:+ t ∧ MatchesBut lit ps v
  | .one _ :: _, [] => False
  | .one p :: ps, c :: t => p c = true ∧ MatchesBut lit ps t

variable {lit : α → Bool} {ps : List (Atom α)} {t : List α} {last : Option (List α × List (Atom α))}

theorem matches_of_but (h : MatchesBut lit ps t) : Matches ps t := by
  induction ps generalizing t with
  | nil => exact h
  | cons a ps ih =>
    cases a with
    | star =>
      rw [MatchesBut] at h
      split_ifs at h
      · exact ⟨t.tail, tail_suffix t, ih h⟩
      · obtain ⟨v, hv, hm⟩ := h
        exact ⟨v, hv, ih hm⟩
    | one p =>
      cases t with
      | nil => exact h
      | cons c t => exact ⟨h.1, ih h.2⟩

theorem matchesBut_false : MatchesBut (fun _ => false) ps t ↔ Matches ps t := by
  refine ⟨matches_of_but, fun h => ?_⟩
  induction ps generalizing t with
  | nil => exact h
  | cons a ps ih =>
    cases a with
    | star =>
      obtain ⟨v, hv, hm⟩ := h
      rw [MatchesBut, if_neg (by cases t <;> simp)]
      exact ⟨v, hv, ih hm⟩
    | one p =>
      cases t with
      | nil => exact h
      | cons c t => exact ⟨h.1, ih h.2⟩

theorem star_suffix (h : MatchesBut lit (.star :: ps) t) : ∃ v, v <:+ t ∧ MatchesBut lit ps v := by
  rw [MatchesBut] at h
  split_ifs at h
  · exact ⟨t.tail, tail_suffix t, h⟩
  · exact h

/-- The atoms `seg` took the characters of `w` one by one. From a later place they do not get less far. -/
theorem matches_walk {seg : List (Atom α)} (hseg : Forall₂ (fun a c => a.isStar = true → lit c = true) seg w)
    (hu : u <:+ w ++ t) (h : MatchesBut lit (seg ++ ps) u) : ∃ v, v <:+ t ∧ MatchesBut lit ps v := by
  induction hseg generalizing u with
  | nil => exact ⟨u, hu, h⟩
  | @cons a c seg w hlit _ ih =>
    have htail : u.tail <:+ w ++ t := by
      rcases suffix_cons_iff.mp hu with rfl | hu
      · exact suffix_rfl
      · exact (tail_suffix u).trans hu
    cases a with
    | star =>
      rw [cons_append, MatchesBut] at h
      split_ifs at h with hhead
      · exact ih htail h
      · obtain ⟨v, hv, hm⟩ := h
        rcases suffix_cons_iff.mp hu with rfl | hu
        · exact absurd (hlit rfl) hhead
        · exact ih (hv.trans hu) hm
    | one p =>
      cases u with
      | nil => exact h.elim
      | cons d u => exact ih htail h.2

theorem matches_nil_iff : MatchesBut lit ps [] ↔ ps.all Atom.isStar = true := by
  induction ps with
  | nil => simp [MatchesBut]
  | cons a ps ih => cases a <;> simp [MatchesBut, Atom.isStar, ih]

def retryAt : Option (List α × List (Atom α)) → Option (List α × List (Atom α))
  | some (_ :: st, sp) => some (st, sp)
  | _ => none

/-- The matcher at the text `t` and the pattern `ps`; `last` is the text and the pattern behind the last
star. It gives no answer when the fuel is used up. -/
def search (lit : α → Bool) : Nat → List α → List (Atom α) → Option (List α × List (Atom α)) → Option Bool
  | 0, _, _, _ => none
  | _ + 1, [], ps, _ => some (ps.all Atom.isStar)
  | fuel + 1, c :: t, .star :: ps, last =>
    if lit c then search lit fuel t ps last else search lit fuel (c :: t) ps (some (c :: t, ps))
  | fuel + 1, c :: t, .one p :: ps, last =>
    if p c then search lit fuel t ps last
    else (retryAt last).elim (some false) fun x => search lit fuel x.1 x.2 (some x)
  | fuel + 1, _ :: _, [], last => (retryAt last).elim (some false) fun x => search lit fuel x.1 x.2 (some x)

def Retry (lit : α → Bool) : Option (List α × List (Atom α)) → Prop
  | none => False
  | some (st, sp) => ∃ u, u <:+ st ∧ u.length < st.length ∧ MatchesBut lit sp u

def Since (lit : α → Bool) (t : List α) (ps : List (Atom α)) : Option (List α × List (Atom α)) → Prop
  | none => True
  | some (st, sp) => ∃ seg w, sp = seg ++ ps ∧ st = w ++ t ∧
      Forall₂ (fun a c => a.isStar = true → lit c = true) seg w

theorem retry_cons : Retry lit (some (s :: st, sp)) ↔ MatchesBut lit sp st ∨ Retry lit (some (st, sp)) := by
  constructor
  · rintro ⟨u, hu, hlt, hm⟩
    rcases suffix_cons_iff.mp hu with rfl | hu
    · exact absurd hlt (lt_irrefl _)
    · by_cases heq : u.length = st.length
      · rw [hu.eq_of_length heq] at hm
        exact .inl hm
      · exact .inr ⟨u, hu, lt_of_le_of_ne hu.length_le heq, hm⟩
  · rintro (hm | ⟨u, hu, hlt, hm⟩)
    · exact ⟨st, suffix_cons s st, by simp, hm⟩
    · exact ⟨u, hu.trans (suffix_cons s st), by simp only [length_cons]; omega, hm⟩

theorem Since.retry (h : Since lit t ps last) (hr : Retry lit last) : ∃ v, v <:+ t ∧ MatchesBut lit ps v := by
  cases last with
  | none => exact hr.elim
  | some x =>
    obtain ⟨st, sp⟩ := x
    obtain ⟨seg, w, rfl, rfl, hseg⟩ := h
    obtain ⟨u, hu, -, hm⟩ := hr
    exact matches_walk hseg hu hm

theorem Since.next (h : Since lit (c :: t) (a :: ps) last) (ha : a.isStar = true → lit c = true) :
    Since lit t ps last := by
  cases last with
  | none => trivial
  | some x =>
    obtain ⟨st, sp⟩ := x
    obtain ⟨seg, w, rfl, rfl, hseg⟩ := h
    exact ⟨seg ++ [a], w ++ [c], by simp, by simp, rel_append hseg (.cons ha .nil)⟩

theorem since_start (t : List α) (ps : List (Atom α)) : Since lit t ps (some (t, ps)) := ⟨[], [], rfl, rfl, .nil⟩

/-- What an earlier star could still do, the one met now can do too. -/
theorem Since.star_iff (h : Since lit t (.star :: ps) last) (hlit : ¬t.head?.any lit) :
    MatchesBut lit ps t ∨ Retry lit (some (t, ps)) ↔ MatchesBut lit (.star :: ps) t ∨ Retry lit last := by
  have hstar : MatchesBut lit (.star :: ps) t ↔ ∃ v, v <:+ t ∧ MatchesBut lit ps v := by
    rw [MatchesBut, if_neg hlit]
  rw [hstar]
  constructor
  · rintro (hm | ⟨u, hu, -, hm⟩)
    · exact .inl ⟨t, suffix_refl _, hm⟩
    · exact .inl ⟨u, hu, hm⟩
  · intro hor
    obtain ⟨v, hv, hm⟩ : ∃ v, v <:+ t ∧ MatchesBut lit ps v := hor.elim id fun hr => by
      obtain ⟨u, hu, hm⟩ := h.retry hr
      obtain ⟨v, hv, hm⟩ := star_suffix hm
      exact ⟨v, hv.trans hu, hm⟩
    by_cases heq : v.length = t.length
    · rw [hv.eq_of_length heq] at hm
      exact .inl hm
    · exact .inr ⟨v, hv, lt_of_le_of_ne hv.length_le heq, hm⟩

def measure (n k : Nat) (ps : List (Atom α)) : Option (List α × List (Atom α)) → Nat
  | none => (n + 1) * (k + 1) + ps.length
  | some (st, _) => st.length * (k + 1) + ps.length

theorem measure_next (h : measure n k (a :: ps) last < fuel + 1) : measure n k ps last < fuel := by
  cases last <;> simp only [measure, length_cons] at h ⊢ <;> omega

theorem Since.measure_star (h : Since lit t (a :: ps) last) (hn : t.length ≤ n)
    (hfuel : measure n k (a :: ps) last < fuel + 1) : measure n k ps (some (t, ps)) < fuel := by
  cases last with
  | none =>
    have := Nat.mul_le_mul_right (k + 1) hn
    simp only [measure, length_cons, Nat.add_mul, Nat.one_mul] at hfuel this ⊢
    omega
  | some x =>
    obtain ⟨st, sp⟩ := x
    obtain ⟨seg, w, -, rfl, -⟩ := h
    have := Nat.mul_le_mul_right (k + 1) (suffix_append w t).length_le
    simp only [measure, length_cons] at hfuel this ⊢
    omega

theorem search_spec (fuel : Nat) {n k : Nat} {t : List α} {ps : List (Atom α)}
    {last : Option (List α × List (Atom α))} (hsince : Since lit t ps last) (hn : t.length ≤ n)
    (hk : ps.length ≤ k) (hlast : ∀ x ∈ last, x.2.length ≤ k ∧ x.1.length ≤ n)
    (hfuel : measure n k ps last < fuel) :
    ∃ b, search lit fuel t ps last = some b ∧ (b = true ↔ MatchesBut lit ps t ∨ Retry lit last) := by
  induction fuel generalizing t ps last with
  | zero => exact absurd hfuel (Nat.not_lt_zero _)
  | succ fuel ih =>
    cases t with
    | nil =>
      refine ⟨ps.all Atom.isStar, by rw [search], ?_⟩
      have hretry : Retry lit last → MatchesBut lit ps [] := fun hr => by
        obtain ⟨v, hv, hm⟩ := hsince.retry hr
        rwa [suffix_nil.mp hv] at hm
      rw [or_iff_left_of_imp hretry, matches_nil_iff]
    | cons c t =>
      -- When the text does not match here, the matcher goes back to the last star.
      have hback : ¬MatchesBut lit ps (c :: t) →
          ∃ b, ((retryAt last).elim (some false) fun x => search lit fuel x.1 x.2 (some x)) = some b ∧
            (b = true ↔ MatchesBut lit ps (c :: t) ∨ Retry lit last) := by
        intro hnot
        cases last with
        | none => exact ⟨false, rfl, by simp [hnot, Retry]⟩
        | some x =>
          obtain ⟨st, sp⟩ := x
          obtain ⟨hsp, hst⟩ := hlast _ rfl
          cases st with
          | nil =>
            obtain ⟨seg, w, -, hw, -⟩ := hsince
            simp at hw
          | cons s st =>
            simp only [length_cons] at hst
            obtain ⟨b, hb, hiff⟩ := ih (since_start st sp) (by omega) hsp
              (by rintro x ⟨rfl⟩; exact ⟨hsp, by simp only; omega⟩) (by
                have hsp' : sp.length ≤ k := hsp
                simp only [measure, length_cons, Nat.add_mul, Nat.one_mul] at hfuel ⊢
                omega)
            exact ⟨b, hb, by rw [hiff, or_iff_right hnot, retry_cons]⟩
      cases ps with
      | nil =>
        rw [search]
        exact hback (by simp [MatchesBut])
      | cons a ps =>
        simp only [length_cons] at hk
        cases a with
        | star =>
          by_cases hlit : lit c = true
          · obtain ⟨b, hb, hiff⟩ :=
              ih (hsince.next fun _ => hlit) (by simp only [length_cons] at hn; omega) (by omega)
              hlast (measure_next hfuel)
            refine ⟨b, by rw [search, if_pos hlit, hb], ?_⟩
            rw [hiff]
            simp [MatchesBut, hlit]
          obtain ⟨b, hb, hiff⟩ := ih (since_start (c :: t) ps) hn (by omega)
            (by rintro x ⟨rfl⟩; exact ⟨by simp only; omega, hn⟩) (hsince.measure_star hn hfuel)
          exact ⟨b, by rw [search, if_neg hlit, hb], by rw [hiff, hsince.star_iff hlit]⟩
        | one p =>
          rw [search]
          by_cases hp : p c = true
          · obtain ⟨b, hb, hiff⟩ := ih (hsince.next fun h => by cases h) (by simp only [length_cons] at hn; omega)
              (by omega) hlast (measure_next hfuel)
            refine ⟨b, by rw [if_pos hp, hb], ?_⟩
            rw [hiff]
            simp only [MatchesBut, hp, true_and]
          · rw [if_neg hp]
            exact hback (by simp [MatchesBut, hp])

theorem search_iff {fuel : Nat} (hfuel : (t.length + 1) * (ps.length + 1) + ps.length < fuel) :
    ∃ b, search lit fuel t ps none = some b ∧ (b = true ↔ MatchesBut lit ps t) := by
  obtain ⟨b, hb, hiff⟩ :=
      @search_spec α lit fuel t.length ps.length t ps none trivial le_rfl le_rfl (by simp) hfuel
  exact ⟨b, hb, by simpa [Retry] using hiff⟩

end Wildcard
