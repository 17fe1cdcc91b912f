import Retrace.CLib.CString

/-!
# The grammar of JSON texts

A text is cut into lexemes: a string literal is one lexeme, whatever is in it, and every other byte is
one. The grammar says which rows of lexemes are a value, and what its shape is: how arrays and objects are
nested, how many items or members each has, and the text of each number or literal. The names and the
contents of strings are not part of the shape.
-/

namespace JsonText

open CLib List Option

variable {s : Bytes} {c : UInt8}

abbrev Lexeme := Option UInt8

inductive Lex where
  | out
  | str
  | esc
  /-- In `\u`, with `n + 1` digits to come. -/
  | uni (n : Nat)
  deriving DecidableEq, Repr

def escapes : Bytes := bytes "\"\\/bfnrt"

def lexStep : Lex → UInt8 → Option (Lex × List Lexeme)
  | .out, c => if c = dquote then some (.str, [none]) else some (.out, [some c])
  | .str, c =>
    if c = dquote then some (.out, [])
    else if c = backslash then some (.esc, [])
    else if c < 32 then none
    else some (.str, [])
  | .esc, c =>
    if c ∈ escapes then some (.str, []) else if c = 117 then some (.uni 3, []) else none
  | .uni n, c =>
    if isxdigit c then some (match n with | 0 => .str | n + 1 => .uni n, []) else none

def lexRun : Lex → Bytes → Option (Lex × List Lexeme)
  | st, [] => some (st, [])
  | st, c :: s => do
    let (st, e) ← lexStep st c
    let (st, e') ← lexRun st s
    some (st, e ++ e')

theorem lexRun_cons (st : Lex) (c : UInt8) (s : Bytes) :
    lexRun st (c :: s) = (lexStep st c).bind fun p => (lexRun p.1 s).map fun q => (q.1, p.2 ++ q.2) := by
  rw [lexRun]
  cases lexStep st c with
  | none => rfl
  | some p => cases h : lexRun p.1 s <;> simp [h]

theorem lexRun_append (st : Lex) (s t : Bytes) :
    lexRun st (s ++ t) = (lexRun st s).bind fun p => (lexRun p.1 t).map fun q => (q.1, p.2 ++ q.2) := by
  induction s generalizing st with
  | nil =>
    cases h : lexRun st t <;> simp [lexRun, h]
  | cons c s ih =>
    rw [cons_append, lexRun_cons, lexRun_cons]
    cases lexStep st c with
    | none => rfl
    | some p =>
      simp only [bind_some, ih]
      cases lexRun p.1 s with
      | none => rfl
      | some q =>
        cases h : lexRun q.1 t <;> simp [h]

inductive Shape where
  | str
  | scalar (text : Bytes)
  | arr (items : List Shape)
  | obj (members : List Shape)

def Blank (ls : List Lexeme) : Prop := ∀ l ∈ ls, l ∈ (bytes " \t\n\r").map some

def Digits (s : Bytes) : Prop := s ≠ [] ∧ ∀ c ∈ s, isdigit c = true

/-- The text of a number: a sign, digits without a superfluous zero, a fraction and an exponent. -/
structure IsNumber (s : Bytes) : Prop where
  parts : ∃ sign int frac exp, s = sign ++ int ++ frac ++ exp ∧ (sign = [] ∨ sign = bytes "-") ∧
    (Digits int ∧ (int.head? = some 48 → int = [48])) ∧
    (frac = [] ∨ ∃ ds, frac = bytes "." ++ ds ∧ Digits ds) ∧
    (exp = [] ∨ ∃ e sg ds, exp = e ++ sg ++ ds ∧ (e = bytes "e" ∨ e = bytes "E") ∧
      (sg = [] ∨ sg = bytes "+" ∨ sg = bytes "-") ∧ Digits ds)

def IsScalar (s : Bytes) : Prop := s = bytes "true" ∨ s = bytes "false" ∨ s = bytes "null" ∨ IsNumber s

inductive Kind where
  | value
  | items
  | members

inductive Derives : Kind → List Shape → List Lexeme → Prop where
  | str : Derives .value [.str] [none]
  | scalar {s : Bytes} (h : IsScalar s) : Derives .value [.scalar s] (s.map some)
  | arr_nil {w : List Lexeme} (hw : Blank w) :
      Derives .value [.arr []] (some lbracket :: (w ++ [some rbracket]))
  | arr {xs : List Shape} {ls : List Lexeme} (h : Derives .items xs ls) :
      Derives .value [.arr xs] (some lbracket :: (ls ++ [some rbracket]))
  | obj_nil {w : List Lexeme} (hw : Blank w) : Derives .value [.obj []] (some lbrace :: (w ++ [some rbrace]))
  | obj {xs : List Shape} {ls : List Lexeme} (h : Derives .members xs ls) :
      Derives .value [.obj xs] (some lbrace :: (ls ++ [some rbrace]))
  | item {x : Shape} {w w' ls : List Lexeme} (hw : Blank w) (hw' : Blank w') (h : Derives .value [x] ls) :
      Derives .items [x] (w ++ (ls ++ w'))
  | items {x : Shape} {xs : List Shape} {ls ls' : List Lexeme} (h : Derives .items [x] ls)
      (h' : Derives .items xs ls') : Derives .items (x :: xs) (ls ++ some comma :: ls')
  | member {x : Shape} {w w' ls : List Lexeme} (hw : Blank w) (hw' : Blank w') (h : Derives .items [x] ls) :
      Derives .members [x] (w ++ none :: (w' ++ some colon :: ls))
  | members {x : Shape} {xs : List Shape} {ls ls' : List Lexeme} (h : Derives .members [x] ls)
      (h' : Derives .members xs ls') : Derives .members (x :: xs) (ls ++ some comma :: ls')

def IsJson (x : Shape) (text : Bytes) : Prop :=
  ∃ ls, lexRun .out text = some (.out, ls) ∧ Derives .items [x] ls

def outsideChars : Bytes := bytes " \t\n\r[]\x7b\x7d,:0123456789+-.eEtrufalsn"

theorem Digits.outside (h : Digits s) (hc : c ∈ s) : c ∈ outsideChars := by
  have hdigits : ∀ n < 58, 48 ≤ n → UInt8.ofNat n ∈ outsideChars := by decide
  have hdigit := h.2 c hc
  simp only [isdigit, UInt8.le_iff_toNat_le, Bool.and_eq_true, decide_eq_true_eq, UInt8.reduceToNat] at hdigit
  have := hdigits c.toNat (by omega) hdigit.1
  rwa [UInt8.ofNat_toNat] at this

theorem IsNumber.outside (h : IsNumber s) (hc : c ∈ s) : c ∈ outsideChars := by
  obtain ⟨sign, int, frac, exp, rfl, hsign, ⟨hint, -⟩, hfrac, hexp⟩ := h.parts
  simp only [mem_append] at hc
  have hminus : ∀ c ∈ bytes "-", c ∈ outsideChars := by decide
  have hplus : ∀ c ∈ bytes "+", c ∈ outsideChars := by decide
  have hdot : ∀ c ∈ bytes ".", c ∈ outsideChars := by decide
  have hexp' : ∀ c ∈ bytes "e" ++ bytes "E", c ∈ outsideChars := by decide
  rcases hc with ((hc | hc) | hc) | hc
  · rcases hsign with rfl | rfl
    · cases hc
    · exact hminus c hc
  · exact hint.outside hc
  · rcases hfrac with rfl | ⟨ds, rfl, hds⟩
    · cases hc
    · rcases mem_append.mp hc with hc | hc
      · exact hdot c hc
      · exact hds.outside hc
  · rcases hexp with rfl | ⟨e, sg, ds, rfl, he, hsg, hds⟩
    · cases hc
    · simp only [mem_append] at hc
      rcases hc with (hc | hc) | hc
      · refine hexp' c (mem_append.mpr ?_)
        rcases he with rfl | rfl
        · exact .inl hc
        · exact .inr hc
      · rcases hsg with rfl | rfl | rfl
        · cases hc
        · exact hplus c hc
        · exact hminus c hc
      · exact hds.outside hc

theorem IsScalar.outside (h : IsScalar s) (hc : c ∈ s) : c ∈ outsideChars := by
  have hliterals : ∀ c ∈ bytes "true" ++ bytes "false" ++ bytes "null", c ∈ outsideChars := by decide
  rcases h with rfl | rfl | rfl | h
  · exact hliterals c (by simp [hc])
  · exact hliterals c (by simp [hc])
  · exact hliterals c (by simp [hc])
  · exact h.outside hc

theorem Blank.outside (h : Blank ls) (hc : some c ∈ ls) : c ∈ outsideChars := by
  obtain ⟨d, hd, heq⟩ := mem_map.mp (h _ hc)
  cases heq
  exact (by decide : ∀ c ∈ bytes " \t\n\r", c ∈ outsideChars) _ hd

theorem Derives.outside (h : Derives k xs ls) (hc : some c ∈ ls) : c ∈ outsideChars := by
  induction h with
  | str => simp at hc
  | scalar h =>
    obtain ⟨d, hd, heq⟩ := mem_map.mp hc
    cases heq
    exact h.outside hd
  | arr_nil hw | obj_nil hw =>
    simp only [mem_cons, mem_append, some.injEq, not_mem_nil, or_false] at hc
    rcases hc with rfl | hc | rfl
    · decide
    · exact hw.outside hc
    · decide
  | arr _ ih | obj _ ih =>
    simp only [mem_cons, mem_append, some.injEq, not_mem_nil, or_false] at hc
    rcases hc with rfl | hc | rfl
    · decide
    · exact ih hc
    · decide
  | item hw hw' _ ih =>
    simp only [mem_append] at hc
    rcases hc with hc | hc | hc
    · exact hw.outside hc
    · exact ih hc
    · exact hw'.outside hc
  | items _ _ ih ih' | members _ _ ih ih' =>
    simp only [mem_append, mem_cons, some.injEq] at hc
    rcases hc with hc | rfl | hc
    · exact ih hc
    · decide
    · exact ih' hc
  | member hw hw' _ ih =>
    simp only [mem_append, mem_cons, some.injEq, reduceCtorEq, false_or] at hc
    rcases hc with hc | hc | rfl | hc
    · exact hw.outside hc
    · exact hw'.outside hc
    · decide
    · exact ih hc

end JsonText
