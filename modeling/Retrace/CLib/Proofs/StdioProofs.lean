import Retrace.CLib.Stdio

/-!
# Facts about files and streams

What a stream was given is in the file or in its buffer, and other files are not touched. `fgets`
delivers the lines that were written one by one, and every byte of a file.
-/

namespace CLib

open List

variable {f : FILE} {ls : List Bytes}

theorem spill_other (hp : p ≠ f.path) : (f.spill fs n).1 p = fs p := by
  simp [FILE.spill, Function.update_of_ne hp]

theorem spill_full : (f.spill fs n).2.full (f.spill fs n).1 = f.full fs := by
  simp only [FILE.full, FILE.spill, Function.update_self, Option.map_map]
  congr 1
  funext s
  simp

theorem fputs_full (fs : FS) (f : FILE) (s : Bytes) : (fputs f s).full fs = (f.full fs).map (· ++ s) := by
  simp only [FILE.full, fputs, Option.map_map]
  congr 1
  funext t
  simp

theorem fflush_content (fs : FS) (f : FILE) : (fflush fs f).1 f.path = f.full fs := by
  simp [fflush, FILE.spill, FILE.full]

theorem fflush_other (hp : p ≠ f.path) : (fflush fs f).1 p = fs p :=
  spill_other hp

theorem fflush_full (fs : FS) (f : FILE) : (fflush fs f).2.full (fflush fs f).1 = f.full fs :=
  spill_full

theorem fclose_content (fs : FS) (f : FILE) : fclose fs f f.path = f.full fs := fflush_content fs f

theorem fclose_other (hp : p ≠ f.path) : fclose fs f p = fs p :=
  fflush_other hp

theorem fopenAppend_full (fs : FS) (p : Path) :
    (fopenAppend fs p).2.full (fopenAppend fs p).1 = some ((fs p).getD []) := by
  simp [fopenAppend, FILE.full]

theorem fopenAppend_other (hq : q ≠ p) : (fopenAppend fs p).1 q = fs q := by
  simp [fopenAppend, Function.update_of_ne hq]

theorem removeFile_self (fs : FS) (p : Path) : removeFile fs p p = none := by
  simp [removeFile]

theorem removeFile_other (hq : q ≠ p) : removeFile fs p q = fs q := by
  simp [removeFile, Function.update_of_ne hq]

theorem IsLine.getLast? (hl : IsLine cap l) : l.getLast? = some newline := by
  obtain ⟨b, rfl, -⟩ := hl
  simp

theorem fgetsFrom_line {cur body : Bytes} (hb : newline ∉ body)
    (hlen : (cur ++ body ++ [newline]).length < cap) (rest : Bytes) :
    fgetsFrom cap cur (body ++ [newline] ++ rest) =
      (cur ++ body ++ [newline]) :: fgetsFrom cap [] rest := by
  induction body generalizing cur with
  | nil => simp [fgetsFrom]
  | cons c body ih =>
    have hc : c ≠ newline := fun h => hb (h ▸ mem_cons_self)
    have hcap : cur.length + 1 ≠ cap - 1 := by simp at hlen; omega
    rw [cons_append, cons_append, fgetsFrom, if_neg (by simp [hc, hcap]),
      ih (fun h => hb (mem_cons_of_mem _ h)) (by simp at hlen ⊢; omega)]
    simp

theorem fgetsAll_line (hl : IsLine cap l) (rest : Bytes) : fgetsAll cap (l ++ rest) = l :: fgetsAll cap rest := by
  obtain ⟨b, rfl, hb, hlen⟩ := hl
  exact @fgetsFrom_line cap [] b hb hlen rest

theorem fgetsAll_lines (hls : ∀ l ∈ ls, IsLine cap l) (rest : Bytes) :
    fgetsAll cap (ls.flatten ++ rest) = ls ++ fgetsAll cap rest := by
  induction ls with
  | nil => rfl
  | cons l ls ih =>
    rw [flatten_cons, append_assoc, fgetsAll_line (hls l mem_cons_self), ih fun x hx =>
      hls x (mem_cons_of_mem _ hx)]
    rfl

theorem fgetsAll_flatten (hls : ∀ l ∈ ls, IsLine cap l) : fgetsAll cap ls.flatten = ls := by
  have := fgetsAll_lines hls []
  simpa [fgetsAll, fgetsFrom] using this

theorem fgetsFrom_append (hs : s.getLast? = some newline) :
    fgetsFrom cap cur (s ++ t) = fgetsFrom cap cur s ++ fgetsAll cap t := by
  induction s generalizing cur with
  | nil => simp at hs
  | cons c s ih =>
    by_cases hnil : s = []
    · obtain rfl : c = newline := by simpa [hnil] using hs
      simp [hnil, fgetsFrom, fgetsAll]
    · have hs' : s.getLast? = some newline := by rwa [getLast?_cons_of_ne_nil hnil] at hs
      simp only [cons_append, fgetsFrom, ih hs']
      split_ifs <;> rfl

theorem fgetsAll_append (hs : s = [] ∨ s.getLast? = some newline) (t : Bytes) :
    fgetsAll cap (s ++ t) = fgetsAll cap s ++ fgetsAll cap t := by
  rcases hs with rfl | hs
  · rfl
  · exact fgetsFrom_append hs

theorem flatten_fgetsFrom (cap : Nat) (cur s : Bytes) : (fgetsFrom cap cur s).flatten = cur ++ s := by
  induction s generalizing cur with
  | nil => by_cases h : cur = [] <;> simp [fgetsFrom, h]
  | cons c s ih =>
    rw [fgetsFrom]
    split_ifs
    · simp [ih]
    · simp [ih]

theorem flatten_fgetsAll (cap : Nat) (s : Bytes) : (fgetsAll cap s).flatten = s :=
  flatten_fgetsFrom cap [] s

theorem mem_fgetsFrom (hcap : 2 ≤ cap) (hcur : newline ∉ cur)
    (hlen : cur.length < cap - 1) (hc : c ∈ fgetsFrom cap cur s) :
    (∃ b x, c = b ++ [x] ∧ newline ∉ b) ∧ c.length < cap := by
  induction s generalizing cur with
  | nil =>
    rw [fgetsFrom] at hc
    split_ifs at hc with h
    · simp at hc
    · obtain rfl : c = cur := by simpa using hc
      refine ⟨⟨c.dropLast, c.getLast h, (dropLast_append_getLast h).symm, ?_⟩, by omega⟩
      exact fun hm => hcur (dropLast_subset _ hm)
  | cons x s ih =>
    rw [fgetsFrom] at hc
    split_ifs at hc with h
    · rcases mem_cons.mp hc with rfl | hc
      · exact ⟨⟨cur, x, rfl, hcur⟩, by simp; omega⟩
      · exact ih (by simp) (by simp; omega) hc
    · have hx : x ≠ newline := fun hx => h (.inl hx)
      refine ih ?_ ?_ hc
      · simpa [hcur] using fun hx' => hx hx'.symm
      · have : cur.length + 1 ≠ cap - 1 := fun hx => h (.inr hx)
        simp
        omega

theorem linesFrom_line (hb : newline ∉ body) (rest : Bytes) :
    linesFrom cur (body ++ newline :: rest) = (cur ++ body ++ [newline]) :: completeLines rest := by
  induction body generalizing cur with
  | nil => simp [linesFrom, completeLines]
  | cons c body ih =>
    obtain ⟨hc, hb⟩ := ne_and_not_mem_of_not_mem_cons hb
    simp [linesFrom, Ne.symm hc, ih hb]

theorem tornFrom_line (hb : newline ∉ body) (rest : Bytes) :
    tornFrom cur (body ++ newline :: rest) = tornTail rest := by
  induction body generalizing cur with
  | nil => simp [tornFrom, tornTail]
  | cons c body ih =>
    obtain ⟨hc, hb⟩ := ne_and_not_mem_of_not_mem_cons hb
    simp [tornFrom, Ne.symm hc, ih hb]

theorem completeLines_line (hb : newline ∉ body) (rest : Bytes) :
    completeLines (body ++ newline :: rest) = (body ++ [newline]) :: completeLines rest :=
  linesFrom_line hb rest

theorem completeLines_append (hls : ∀ l ∈ ls, IsLine cap l) (rest : Bytes) :
    completeLines (ls.flatten ++ rest) = ls ++ completeLines rest ∧
      tornTail (ls.flatten ++ rest) = tornTail rest := by
  induction ls with
  | nil => exact ⟨rfl, rfl⟩
  | cons l ls ih =>
    obtain ⟨b, hl, hb, -⟩ := hls l mem_cons_self
    obtain ⟨ih1, ih2⟩ := ih fun l hl => hls l (mem_cons_of_mem _ hl)
    have heq : (l :: ls).flatten ++ rest = b ++ newline :: (ls.flatten ++ rest) := by simp [hl]
    rw [heq, completeLines_line hb, ih1, hl, tornTail, tornFrom_line hb, ih2]
    exact ⟨rfl, rfl⟩

theorem linesFrom_of_not_mem (hs : newline ∉ s) : linesFrom cur s = [] ∧ tornFrom cur s = cur ++ s := by
  induction s generalizing cur with
  | nil => simp [linesFrom, tornFrom]
  | cons c s ih =>
    obtain ⟨hc, hs⟩ := ne_and_not_mem_of_not_mem_cons hs
    simpa [linesFrom, tornFrom, Ne.symm hc] using @ih (cur ++ [c]) hs

theorem completeLines_of_not_mem (hs : newline ∉ s) : completeLines s = [] :=
  (linesFrom_of_not_mem hs).1

theorem tornTail_of_not_mem (hs : newline ∉ s) : tornTail s = s :=
  (linesFrom_of_not_mem hs).2

theorem exists_first_line (hs : newline ∈ s) : ∃ b rest, s = b ++ newline :: rest ∧ newline ∉ b := by
  obtain ⟨b, rest, h, hb⟩ := eq_append_cons_of_mem hs
  exact ⟨b, rest, h, hb⟩

theorem ne_nil_of_mem_fgetsAll (hcap : 2 ≤ cap) (hc : c ∈ fgetsAll cap s) : c ≠ [] := by
  obtain ⟨⟨b, x, rfl, -⟩, -⟩ := mem_fgetsFrom hcap (by simp) (by simp; omega) hc
  simp

theorem fgetsFrom_torn {cur s : Bytes} (hs : newline ∉ s) (hne : cur ++ s ≠ [])
    (hlen : (cur ++ s).length + 1 < cap) : fgetsFrom cap cur s = [cur ++ s] := by
  induction s generalizing cur with
  | nil => simpa [fgetsFrom] using hne
  | cons c s ih =>
    obtain ⟨hc, hs⟩ := ne_and_not_mem_of_not_mem_cons hs
    have hcap : cur.length + 1 ≠ cap - 1 := by simp at hlen; omega
    rw [fgetsFrom, if_neg (by simp [Ne.symm hc, hcap]), ih hs (by simp) (by simpa using hlen)]
    simp

theorem linesFrom_append (cur s t : Bytes) :
    linesFrom cur (s ++ t) = linesFrom cur s ++ linesFrom (tornFrom cur s) t ∧
      tornFrom cur (s ++ t) = tornFrom (tornFrom cur s) t := by
  induction s generalizing cur with
  | nil => exact ⟨rfl, rfl⟩
  | cons c s ih =>
    by_cases hc : c = newline
    · simp [linesFrom, tornFrom, hc, ih []]
    · simp [linesFrom, tornFrom, hc, ih (cur ++ [c])]

theorem exists_line_of_cons (cur : Bytes) (c : UInt8) (s : Bytes) :
    ∃ l ∈ linesFrom cur (c :: s) ++ [tornFrom cur (c :: s)], cur.length + 1 ≤ l.length := by
  induction s generalizing cur c with
  | nil =>
    by_cases hc : c = newline
    · exact ⟨cur ++ [c], by simp [linesFrom, hc], by simp⟩
    · exact ⟨cur ++ [c], by simp [linesFrom, tornFrom, hc], by simp⟩
  | cons d s ih =>
    by_cases hc : c = newline
    · exact ⟨cur ++ [c], by simp [linesFrom, hc], by simp⟩
    · obtain ⟨l, hl, hlen⟩ := ih (cur ++ [c]) d
      refine ⟨l, ?_, by simp at hlen; omega⟩
      rwa [linesFrom, tornFrom, if_neg hc, if_neg hc]

theorem fgetsFrom_eq_lines (hs : ∀ l ∈ linesFrom cur s ++ [tornFrom cur s], l.length < cap) : fgetsFrom cap cur s =
      linesFrom cur s ++ if tornFrom cur s = [] then [] else [tornFrom cur s] := by
  induction s generalizing cur with
  | nil => rfl
  | cons c s ih =>
    by_cases hc : c = newline
    · simp only [linesFrom, tornFrom, hc, if_true, cons_append, mem_cons] at hs ⊢
      rw [fgetsFrom, if_pos (.inl rfl), ih fun l hl => hs l (.inr hl)]
    · rw [linesFrom, tornFrom, if_neg hc, if_neg hc] at hs ⊢
      rw [fgetsFrom]
      by_cases hfull : cur.length + 1 = cap - 1
      · -- The buffer is full: nothing can follow.
        cases s with
        | nil => simp [hfull, fgetsFrom, linesFrom, tornFrom]
        | cons d s =>
          obtain ⟨l, hl, hlen⟩ := exists_line_of_cons (cur ++ [c]) d s
          have := hs l hl
          simp at hlen
          omega
      · rw [if_neg (by simp [hc, hfull]), ih hs]

theorem exists_take_of_prefix (hls : ∀ l ∈ ls, IsLine cap l) (hp : p <+: ls.flatten) :
    ∃ k part, p = (ls.take k).flatten ++ part ∧ newline ∉ part ∧ (part ≠ [] → part.length + 1 < cap) := by
  induction ls generalizing p with
  | nil => exact ⟨0, [], by simpa using hp, by simp, by simp⟩
  | cons l ls ih =>
    obtain ⟨b, hl, hb, hlen⟩ := hls l mem_cons_self
    rw [flatten_cons] at hp
    have hlp : l <+: l ++ ls.flatten := prefix_append _ _
    rcases Nat.lt_or_ge p.length l.length with hlt | hge
    · -- The first line is not complete.
      have hpl := prefix_of_prefix_length_le hp hlp hlt.le
      rw [hl] at hpl hlt
      have hpb : p <+: b := by
        rcases prefix_concat_iff.mp hpl with h | h
        · exact absurd (congrArg List.length h) (by simp at hlt ⊢; omega)
        · exact h
      refine ⟨0, p, by simp, fun h => hb (hpb.subset h), fun _ => ?_⟩
      have := hpb.length_le
      rw [hl] at hlen
      simp at hlen
      omega
    · obtain ⟨q, rfl⟩ := prefix_of_prefix_length_le hlp hp hge
      obtain ⟨k, part, hq, hnl, hcap⟩ := ih (fun l hl => hls l (mem_cons_of_mem _ hl))
        ((prefix_append_right_inj l).mp hp)
      exact ⟨k + 1, part, by simp [hq], hnl, hcap⟩

theorem fgetsAll_begins (hls : ∀ l ∈ ls, IsLine cap l)
    {part : Bytes} (hnl : newline ∉ part) (hcap : part ≠ [] → part.length + 1 < cap) :
    fgetsAll cap ((ls.take k).flatten ++ part) = ls.take k ++ if part = [] then [] else [part] := by
  rw [fgetsAll_lines fun l hl => hls l (mem_of_mem_take hl)]
  congr 1
  split_ifs with h
  · simp [h, fgetsAll, fgetsFrom]
  · exact @fgetsFrom_torn cap [] part hnl h (hcap h)

end CLib
