import Retrace.CLib.CString

/-!
# The words of a shell command

How a POSIX shell splits a simple command into words: blanks separate them, single quotes keep everything,
double quotes and the backslash keep what they keep. A character that would make the shell do more than
split, an operator, an expansion, a pattern or a line continuation, fails, and so does a quote that is not
closed. The lexer is a state machine over characters, so that texts that are put together can be read
piece by piece.
-/

namespace Shell

open CLib

abbrev squote : UInt8 := 39

def blank (c : UInt8) : Bool := c == 32 || c == 9

/-- A character that has to be quoted to stand for itself, apart from blanks, quotes and the backslash:
newline and the characters of operators, expansions and patterns. -/
def special (c : UInt8) : Bool :=
  c == newline || (bytes "|&;<>()$*?[#~=%").contains c || c == 96

inductive Lexer where
  | between (done : List Bytes)
  | word (done : List Bytes) (w : Bytes)
  | escape (done : List Bytes) (w : Bytes)
  | single (done : List Bytes) (w : Bytes)
  | double (done : List Bytes) (w : Bytes)
  | doubleEscape (done : List Bytes) (w : Bytes)
  | fail
  deriving DecidableEq, Repr

/-- The step outside of quotes in a word `w`; `stay` is the state behind a blank. -/
def Lexer.bare (done : List Bytes) (w : Bytes) (stay : Lexer) (c : UInt8) : Lexer :=
  if blank c then stay
  else if c = squote then .single done w
  else if c = dquote then .double done w
  else if c = backslash then .escape done w
  else if special c then .fail
  else .word done (w ++ [c])

def Lexer.step : Lexer → UInt8 → Lexer
  | .between done, c => bare done [] (.between done) c
  | .word done w, c => bare done w (.between (done ++ [w])) c
  | .escape done w, c => if c = newline then .fail else .word done (w ++ [c])
  | .single done w, c => if c = squote then .word done w else .single done (w ++ [c])
  | .double done w, c =>
    if c = dquote then .word done w
    else if c = backslash then .doubleEscape done w
    else if c = 36 ∨ c = 96 then .fail
    else .double done (w ++ [c])
  | .doubleEscape done w, c =>
    if c = newline then .fail
    else if c = 36 ∨ c = 96 ∨ c = dquote ∨ c = backslash then .double done (w ++ [c])
    else .double done (w ++ [backslash, c])
  | .fail, _ => .fail

def Lexer.run (l : Lexer) (s : Bytes) : Lexer := s.foldl Lexer.step l

def Lexer.finish : Lexer → Option (List Bytes)
  | .between done => some done
  | .word done w => some (done ++ [w])
  | _ => none

def words (s : Bytes) : Option (List Bytes) := (Lexer.run (.between []) s).finish

def escapeQuotes (s : Bytes) : Bytes :=
  s.flatMap fun c => if c = squote then [squote, backslash, squote, squote] else [c]

def ordinary (c : UInt8) : Bool := !blank c && c != squote && c != dquote && c != backslash && !special c

theorem Lexer.run_append (l : Lexer) (s t : Bytes) : l.run (s ++ t) = (l.run s).run t := List.foldl_append

@[simp]
theorem Lexer.run_nil (l : Lexer) : l.run [] = l := rfl

@[simp]
theorem Lexer.run_cons (l : Lexer) (c : UInt8) (s : Bytes) : l.run (c :: s) = (l.step c).run s := rfl

@[simp]
theorem escapeQuotes_nil : escapeQuotes [] = [] := rfl

theorem escapeQuotes_cons :
    escapeQuotes (c :: s) = (if c = squote then [squote, backslash, squote, squote] else [c]) ++
      escapeQuotes s := by
  simp [escapeQuotes]

theorem escapeQuotes_append (s t : Bytes) : escapeQuotes (s ++ t) = escapeQuotes s ++ escapeQuotes t := by
  simp [escapeQuotes]

theorem run_single_escapeQuotes (done : List Bytes) (w s : Bytes) :
    Lexer.run (.single done w) (escapeQuotes s) = .single done (w ++ s) := by
  induction s generalizing w with
  | nil => simp
  | cons c s ih =>
    rw [escapeQuotes_cons, Lexer.run_append]
    by_cases hc : c = squote
    · subst hc
      have hquote : Lexer.run (.single done w) [squote, backslash, squote, squote] =
          .single done (w ++ [squote]) :=
        rfl
      rw [if_pos rfl, hquote, ih]
      simp
    · rw [if_neg hc]
      simp [Lexer.step, hc, ih]

theorem bare_ordinary {c : UInt8} (h : ordinary c = true) : Lexer.bare done w stay c = .word done (w ++ [c]) := by
  simp only [ordinary, Bool.and_eq_true, Bool.not_eq_true', bne_iff_ne, ne_eq] at h
  obtain ⟨⟨⟨⟨hb, hsq⟩, hdq⟩, hbs⟩, hsp⟩ := h
  simp [Lexer.bare, hb, hsq, hdq, hbs, hsp]

theorem run_word_ordinary (done : List Bytes) (w : Bytes) {s : Bytes} (h : s.all ordinary = true) :
    Lexer.run (.word done w) s = .word done (w ++ s) := by
  induction s generalizing w with
  | nil => simp
  | cons c s ih =>
    simp only [List.all_cons, Bool.and_eq_true] at h
    obtain ⟨hc, hs⟩ := h
    have hstep : Lexer.step (.word done w) c = .word done (w ++ [c]) := bare_ordinary hc
    rw [Lexer.run_cons, hstep, ih _ hs]
    simp

theorem run_blank_ordinary (done : List Bytes) (w : Bytes) {s : Bytes} (h : s.all ordinary = true) (hne : s ≠ []) :
    Lexer.run (.word done w) (32 :: s) = .word (done ++ [w]) s := by
  obtain ⟨c, t, rfl⟩ := List.exists_cons_of_ne_nil hne
  simp only [List.all_cons, Bool.and_eq_true] at h
  obtain ⟨hc, ht⟩ := h
  have hstep : Lexer.step (.between (done ++ [w])) c = .word (done ++ [w]) [c] := bare_ordinary hc
  have hblank : Lexer.step (.word done w) 32 = .between (done ++ [w]) := rfl
  rw [Lexer.run_cons, hblank, Lexer.run_cons, hstep, run_word_ordinary _ _ ht]
  rfl

end Shell
