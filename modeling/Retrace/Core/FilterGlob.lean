import Retrace.CLib.CString
import Retrace.Wildcard.Wildcard

/-!
# The portable glob

`retrace_filter_glob_match` of `filter_dsl.c`, and the language that a pattern stands for: a star is any run
of characters, a question mark any one character, a bracket opens a class of characters, a backslash takes
the next character as it is.
-/

namespace Retrace.Core

open CLib Wildcard

def char_value (c : UInt8) : Int := if c < 128 then c.toNat else c.toNat - 256

/-- The loop over a class from `q` on: whether the character is in it, and the pattern behind the class.
There is none when the class is not closed. -/
def class_loop (c : UInt8) : Nat → Bytes → Bool → Option (Bool × Bytes)
  | 0, _, _ => none
  | _ + 1, [], _ => none
  | fuel + 1, q :: qs, matched =>
    if q = 93 then some (matched, qs)
    else if qs.head? = some 45 ∧ qs[1]? ≠ some 93 ∧ 1 < qs.length then
      class_loop c fuel (qs.drop 2)
        (matched || (decide (char_value q ≤ char_value c) && decide (char_value c ≤ char_value (qs.getD 1 0))))
    else class_loop c fuel qs (matched || c == q)

/-- The branch for `[` at the pattern `q` behind the bracket: whether the class takes the character, and the
pattern behind the class. -/
def class_match (c : UInt8) (q : Bytes) : Option (Bool × Bytes) :=
  let negate := q.head? = some 33 ∨ q.head? = some 94
  let q := if negate then q.tail else q
  let first := q.head? = some 93
  let matched := decide first && c == 93
  let q := if first then q.tail else q
  (class_loop c (q.length + 1) q matched).map fun x => (x.1 != decide negate, x.2)

/-- The loop of `retrace_filter_glob_match` at the pattern `p` and the text `t`; `last` is the pattern behind the
last star and the text it was tried at. -/
def filter_glob_loop : Nat → Bytes → Bytes → Option (Bytes × Bytes) → Bool
  | 0, _, _, _ => false
  | _ + 1, p, [], _ => (p.dropWhile (· == 42)).isEmpty
  | fuel + 1, p, c :: t, last =>
    let retry := last.elim false fun x => filter_glob_loop fuel x.1 x.2.tail (some (x.1, x.2.tail))
    if p.head? = some 63 then filter_glob_loop fuel p.tail t last
    else if p.head? = some 92 ∧ 1 < p.length then
      if p[1]? = some c then filter_glob_loop fuel (p.drop 2) t last else retry
    else if p.head? = some 91 then
      match class_match c p.tail with
      | some (taken, rest) => if taken then filter_glob_loop fuel rest t last else retry
      | none => if c = 91 then filter_glob_loop fuel p.tail t last else retry
    else if p.head? = some c then filter_glob_loop fuel p.tail t last
    else if p.head? = some 42 then filter_glob_loop fuel p.tail (c :: t) (some (p.tail, c :: t))
    else retry

/-- `retrace_filter_glob_match`. Between two returns to the last star the pattern only gets shorter, and every
return moves the star on by one character of the text. -/
def retrace_filter_glob_match (pattern text : Bytes) : Bool :=
  filter_glob_loop ((text.length + 2) * (pattern.length + 2)) pattern text none

inductive ClassItem where
  | char (c : UInt8)
  | range (first last : UInt8)

def ClassItem.has (c : UInt8) : ClassItem → Bool
  | .char d => c == d
  | .range first last => char_value first ≤ char_value c && char_value c ≤ char_value last

def class_items : Nat → Bytes → Option (List ClassItem × Bytes)
  | 0, _ => none
  | _ + 1, [] => none
  | fuel + 1, q :: qs =>
    if q = 93 then some ([], qs)
    else if qs.head? = some 45 ∧ qs[1]? ≠ some 93 ∧ 1 < qs.length then
      (class_items fuel (qs.drop 2)).map fun x => (.range q (qs.getD 1 0) :: x.1, x.2)
    else (class_items fuel qs).map fun x => (.char q :: x.1, x.2)

/-- The class behind an opening bracket: `!` or `^` takes the characters that are not in it, and a closing
bracket that stands first is a member. -/
def glob_class (q : Bytes) : Option ((UInt8 → Bool) × Bytes) :=
  let negate := q.head? = some 33 ∨ q.head? = some 94
  let q := if negate then q.tail else q
  let first := q.head? = some 93
  let q := if first then q.tail else q
  (class_items (q.length + 1) q).map fun x =>
    (fun c => ((if first then [ClassItem.char 93] else []) ++ x.1).any (ClassItem.has c) != decide negate, x.2)

/-- The first atom of a pattern, and the pattern behind it. A bracket whose class is not closed and a
backslash at the end are characters. -/
def next_atom : Bytes → Option (Atom UInt8 × Bytes)
  | [] => none
  | c :: p =>
    if c = 42 then some (.star, p)
    else if c = 63 then some (.one fun _ => true, p)
    else if c = 92 then
      match p with
      | d :: p' => some (.one (· == d), p')
      | [] => some (.one (· == c), [])
    else if c = 91 then
      match glob_class p with
      | some (cls, rest) => some (.one cls, rest)
      | none => some (.one (· == c), p)
    else some (.one (· == c), p)

def atomsUpTo : Nat → Bytes → List (Atom UInt8)
  | 0, _ => []
  | n + 1, p =>
    match next_atom p with
    | some (a, rest) => a :: atomsUpTo n rest
    | none => []

def atoms (p : Bytes) : List (Atom UInt8) := atomsUpTo p.length p

def Decides (pattern text : Bytes) : Prop :=
  retrace_filter_glob_match pattern text = true ↔ Matches (atoms pattern) text

end Retrace.Core
