import Retrace.Core.FilterGlob

/-!
# What the portable glob decides

The matcher of `filter_dsl.c` is the search of `Wildcard` over the atoms of the pattern. A character of
the text that equals the one of the pattern is taken before the star is looked at, so a star of the
pattern that is tried at a star of the text takes exactly this character.
-/

namespace Retrace.Core

open CLib Wildcard List Option

theorem class_loop_eq :
    class_loop c fuel q matched = (class_items fuel q).map fun x =>
      (matched || x.1.any (ClassItem.has c), x.2) := by
  induction fuel generalizing q matched with
  | zero => rfl
  | succ fuel ih =>
    cases q with
    | nil => rfl
    | cons q qs =>
      rw [class_loop, class_items]
      split_ifs with hclose hrange
      · simp
      · rw [ih, Option.map_map]
        congr 1
        funext x
        simp [ClassItem.has, Bool.or_assoc]
      · rw [ih, Option.map_map]
        congr 1
        funext x
        simp [ClassItem.has, Bool.or_assoc]

theorem class_match_eq : class_match c q = (glob_class q).map fun x => (x.1 c, x.2) := by
  rw [class_match, glob_class]
  simp only [class_loop_eq, Option.map_map]
  congr 1
  funext x
  by_cases hfirst : (if q.head? = some 33 ∨ q.head? = some 94 then q.tail else q).head? = some 93
  · simp [hfirst, ClassItem.has]
  · simp [hfirst]

theorem class_items_length (h : class_items fuel q = some (items, rest)) : rest.length < q.length := by
  induction fuel generalizing q items with
  | zero => simp [class_items] at h
  | succ fuel ih =>
    cases q with
    | nil => simp [class_items] at h
    | cons q qs =>
      rw [class_items] at h
      split_ifs at h with hclose hrange
      · cases h
        simp
      · obtain ⟨x, hx, heq⟩ := map_eq_some_iff.mp h
        cases heq
        have := ih hx
        rw [length_drop] at this
        simp only [length_cons]
        omega
      · obtain ⟨x, hx, heq⟩ := map_eq_some_iff.mp h
        cases heq
        exact (ih hx).trans (by simp)

theorem tail_if_length_le (b : Prop) [Decidable b] (q : Bytes) : (if b then q.tail else q).length ≤ q.length := by
  split_ifs <;> simp

theorem glob_class_length (h : glob_class q = some (cls, rest)) : rest.length < q.length := by
  obtain ⟨x, hx, heq⟩ := map_eq_some_iff.mp h
  cases heq
  exact lt_of_lt_of_le (class_items_length hx) ((tail_if_length_le _ _).trans (tail_if_length_le _ q))

theorem next_atom_length (h : next_atom p = some (a, rest)) : rest.length < p.length := by
  cases p with
  | nil => simp [next_atom] at h
  | cons c p =>
    rw [next_atom.eq_def] at h
    dsimp only at h
    split_ifs at h
    · cases h
      simp
    · cases h
      simp
    · cases p with
      | nil => cases h; simp
      | cons d p => cases h; simp
    · cases hcls : glob_class p with
      | none =>
        rw [hcls] at h
        cases h
        simp
      | some x =>
        rw [hcls] at h
        cases h
        exact (glob_class_length hcls).trans (by simp)
    · cases h
      simp

theorem next_atom_one (p : Bytes) (h : c ≠ 42) : ∃ f rest, next_atom (c :: p) = some (.one f, rest) := by
  rw [next_atom.eq_def]
  dsimp only
  rw [if_neg h]
  split_ifs
  · exact ⟨_, _, rfl⟩
  · cases p with
    | nil => exact ⟨_, _, rfl⟩
    | cons d p => exact ⟨_, _, rfl⟩
  · cases glob_class p with
    | none => exact ⟨_, _, rfl⟩
    | some x => exact ⟨_, _, rfl⟩
  · exact ⟨_, _, rfl⟩

theorem atomsUpTo_eq (hn : p.length ≤ n) (hm : p.length ≤ m) : atomsUpTo n p = atomsUpTo m p := by
  induction n generalizing m p with
  | zero =>
    obtain rfl := length_eq_zero_iff.mp (Nat.le_zero.mp hn)
    cases m <;> rfl
  | succ n ih =>
    cases m with
    | zero =>
      obtain rfl := length_eq_zero_iff.mp (Nat.le_zero.mp hm)
      rfl
    | succ m =>
      rw [atomsUpTo, atomsUpTo]
      cases hnext : next_atom p with
      | none => rfl
      | some x =>
        have := next_atom_length hnext
        exact congrArg _ (ih (by omega) (by omega))

@[simp] theorem atoms_nil : atoms [] = [] := rfl

theorem atoms_next (h : next_atom p = some (a, rest)) : atoms p = a :: atoms rest := by
  have hlen := next_atom_length h
  obtain ⟨n, hn⟩ : ∃ n, p.length = n + 1 := ⟨p.length - 1, by omega⟩
  rw [atoms, hn, atomsUpTo, h]
  exact congrArg _ (atomsUpTo_eq (by omega) le_rfl)

theorem atoms_length_le (p : Bytes) : (atoms p).length ≤ p.length := by
  induction hn : p.length using Nat.strong_induction_on generalizing p with
  | _ n ih =>
    cases hnext : next_atom p with
    | none =>
      cases p with
      | nil => simp
      | cons c p =>
        by_cases hc : c = 42
        · simp [next_atom, hc] at hnext
        · obtain ⟨f, rest, hsome⟩ := next_atom_one p hc
          simp [hsome] at hnext
    | some x =>
      have hlen := next_atom_length hnext
      have := ih x.2.length (by omega) x.2 rfl
      rw [atoms_next hnext, length_cons]
      omega

theorem atoms_all_isStar : (atoms p).all Atom.isStar = (p.dropWhile (· == 42)).isEmpty := by
  induction p with
  | nil => rfl
  | cons c p ih =>
    by_cases hc : c = 42
    · have hnext : next_atom (c :: p) = some (.star, p) := by simp [next_atom, hc]
      rw [atoms_next hnext, all_cons, ih]
      simp [hc, Atom.isStar]
    · obtain ⟨f, rest, hnext⟩ := next_atom_one p hc
      rw [atoms_next hnext]
      simp [hc, Atom.isStar]

theorem filter_glob_loop_one (h : next_atom p = some (.one f, rest)) :
    filter_glob_loop (fuel + 1) p (c :: t) last =
      if f c then filter_glob_loop fuel rest t last
      else last.elim false fun x => filter_glob_loop fuel x.1 x.2.tail (some (x.1, x.2.tail)) := by
  cases p with
  | nil => simp [next_atom] at h
  | cons d p =>
    rw [next_atom.eq_def] at h
    dsimp only at h
    rw [filter_glob_loop]
    split_ifs at h with hstar hany hesc hcls
    · cases h
    · cases h
      simp [hany]
    · cases p with
      | nil =>
        cases h
        by_cases hcd : c = d
        · simp [hesc, hcd]
        · have : d ≠ c := fun h => hcd h.symm
          subst hesc
          simp [hcd, this]
      | cons e p =>
        cases h
        by_cases hce : c = e
        · simp [hesc, hce]
        · have : e ≠ c := fun h => hce h.symm
          simp [hesc, hce, this]
    · cases hg : glob_class p with
      | none =>
        rw [hg] at h
        cases h
        simp [hcls, class_match_eq, hg]
      | some x =>
        rw [hg] at h
        cases h
        simp [hcls, class_match_eq, hg]
    · cases h
      by_cases hcd : c = d
      · simp [hany, hesc, hcls, hcd]
      · have : d ≠ c := fun h => hcd h.symm
        simp [hany, hesc, hcls, hcd, this, hstar]

theorem filter_glob_loop_star : filter_glob_loop (fuel + 1) (42 :: p) (c :: t) last =
    if c == 42 then filter_glob_loop fuel p t last else filter_glob_loop fuel p (c :: t) (some (p, c :: t)) := by
  rw [filter_glob_loop]
  by_cases hc : c = 42
  · simp [hc]
  · have : 42 ≠ c := Ne.symm hc
    simp [hc, this]

theorem filter_glob_loop_end :
    filter_glob_loop (fuel + 1) [] (c :: t) last =
      last.elim false fun x => filter_glob_loop fuel x.1 x.2.tail (some (x.1, x.2.tail)) := by
  rw [filter_glob_loop]
  simp

/-- The loop of the glob does what the search does. -/
theorem filter_glob_loop_eq (fuel : Nat) {p t : Bytes} {last : Option (Bytes × Bytes)} {b : Bool}
    (hlast : ∀ x ∈ last, t.length ≤ x.2.length)
    (h : search (· == 42) fuel t (atoms p) (last.map fun x => (x.2, atoms x.1)) = some b) :
    filter_glob_loop fuel p t last = b := by
  induction fuel generalizing p t last with
  | zero => simp [search] at h
  | succ fuel ih =>
    cases t with
    | nil =>
      rw [search, some.injEq, atoms_all_isStar] at h
      rw [filter_glob_loop, h]
    | cons c t =>
      have hshort : ∀ x ∈ last, t.length ≤ x.2.length := fun x hx => (Nat.le_succ _).trans (hlast x hx)
      -- When nothing matches here, both go back to the last star.
      have hback : ((retryAt (last.map fun x => (x.2, atoms x.1))).elim (some false)
            fun x => search (· == 42) fuel x.1 x.2 (some x)) = some b →
          (last.elim false fun x => filter_glob_loop fuel x.1 x.2.tail (some (x.1, x.2.tail))) = b := by
        intro hrun
        cases last with
        | none => simpa [retryAt] using hrun
        | some x =>
          obtain ⟨star_p, star_t⟩ := x
          cases star_t with
          | nil => simpa using hlast _ rfl
          | cons s star_t => exact ih (by rintro x ⟨rfl⟩; exact le_rfl) hrun
      cases p with
      | nil =>
        rw [atoms_nil, search] at h
        rw [filter_glob_loop_end]
        exact hback h
      | cons d p =>
        by_cases hd : d = 42
        · have hnext : next_atom (d :: p) = some (.star, p) := by simp [next_atom, hd]
          rw [atoms_next hnext, search] at h
          rw [hd, filter_glob_loop_star]
          split_ifs at h ⊢
          · exact ih hshort h
          · exact ih (by rintro x ⟨rfl⟩; exact le_rfl) h
        · obtain ⟨f, rest, hnext⟩ := next_atom_one p hd
          rw [atoms_next hnext, search] at h
          rw [filter_glob_loop_one hnext]
          split_ifs at h ⊢
          · exact ih hshort h
          · exact hback h

theorem filter_glob_match_iff : retrace_filter_glob_match pattern text = true ↔
    MatchesBut (· == 42) (atoms pattern) text := by
  have hfuel : (text.length + 1) * ((atoms pattern).length + 1) + (atoms pattern).length <
      (text.length + 2) * (pattern.length + 2) := by
    have hle := Nat.mul_le_mul_left (text.length + 2) (atoms_length_le pattern)
    ring_nf at hle ⊢
    omega
  obtain ⟨b, hb, hiff⟩ := search_iff hfuel
  have hloop := @filter_glob_loop_eq _ pattern text none b (by simp) hb
  rw [retrace_filter_glob_match, hloop, hiff]

/-- The glob decides whether a text is in the language of a pattern exactly when the text is not, or is
also matched with every star that begins at a star of the text taking this character only. -/
theorem glob_decides_iff (pattern text : Bytes) : Decides pattern text ↔
    (Matches (atoms pattern) text → MatchesBut (· == 42) (atoms pattern) text) := by
  rw [Decides, filter_glob_match_iff]
  exact ⟨fun h => h.mpr, fun h => ⟨matches_of_but, h⟩⟩

/-- The pattern `*?` does not match the text `*`. -/
theorem glob_misses_star : ¬Decides (bytes "*?") (bytes "*") := by
  intro h
  have hatoms : atoms (bytes "*?") = [.star, .one fun _ => true] := rfl
  have hmatch : Matches (atoms (bytes "*?")) (bytes "*") := by
    rw [hatoms]
    exact ⟨bytes "*", suffix_rfl, rfl, rfl⟩
  exact absurd (h.mpr hmatch) (by decide)

end Retrace.Core
