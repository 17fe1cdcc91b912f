import Mathlib.Data.List.Basic
import Mathlib.Data.Nat.Digits.Lemmas
import Mathlib.Data.Int.Log
import Mathlib.Data.Rat.Floor
import Mathlib.Tactic

/-!
# C strings

Byte strings, the view C has of them (everything up to the first NUL), and the functions of the C
library that format and scan them: the conversions of `snprintf`, `strstr`, `strtoull`, `strtol` and
`strtod`. A pointer into a string is modelled by the bytes that are left from there; the empty list
stands for the terminating NUL. A fixed array is the list of its bytes; what a copy does not write stays
as it was.
-/

namespace CLib

abbrev Bytes := List UInt8

instance : LawfulBEq Bytes := inferInstance

/-- What is asked of every byte of a string is decided by going through the string. -/
instance (priority := 2000) (s : Bytes) (p : UInt8 → Prop) [DecidablePred p] : Decidable (∀ c ∈ s, p c) :=
  List.decidableBAll p s

def bytes (s : String) : Bytes := s.toList.map fun c => c.toNat.toUInt8

def cstr (s : Bytes) : Bytes := s.takeWhile (· ≠ 0)

abbrev newline : UInt8 := 10

abbrev dquote : UInt8 := 34

abbrev backslash : UInt8 := 92

abbrev comma : UInt8 := 44

abbrev colon : UInt8 := 58

abbrev lbrace : UInt8 := 123

abbrev rbrace : UInt8 := 125

abbrev lbracket : UInt8 := 91

abbrev rbracket : UInt8 := 93

def isspace (c : UInt8) : Bool := c == 32 || (9 ≤ c && c ≤ 13)

def isdigit (c : UInt8) : Bool := 48 ≤ c && c ≤ 57

def hexval (c : UInt8) : Nat :=
  if isdigit c then c.toNat - 48
  else if 97 ≤ c && c ≤ 102 then c.toNat - 87
  else if 65 ≤ c && c ≤ 70 then c.toNat - 55
  else 16

def isxdigit (c : UInt8) : Bool := hexval c < 16

def tolower (c : UInt8) : UInt8 := if 65 ≤ c && c ≤ 90 then c + 32 else c

def plainChar (c : UInt8) : Bool := 32 ≤ c && c ≠ dquote && c ≠ backslash

def Plain (s : Bytes) : Prop := ∀ c ∈ s, plainChar c = true

instance (s : Bytes) : Decidable (Plain s) := decidable_of_iff (s.all plainChar = true) List.all_eq_true

def Inline (s : Bytes) : Prop := ∀ c ∈ s, c ≠ newline ∧ c ≠ 0

instance (s : Bytes) : Decidable (Inline s) :=
  decidable_of_iff (s.all (fun c => c ≠ newline ∧ c ≠ 0) = true) (by simp [Inline])

def snprintf (cap : Nat) (s : Bytes) : Bytes := s.take (cap - 1)

def decDigit (d : Nat) : UInt8 := (48 + d).toUInt8

def fmtNat (n : Nat) : Bytes :=
  if n = 0 then [48] else (Nat.digits 10 n).reverse.map decDigit

def fmtInt (n : Int) : Bytes :=
  if n < 0 then 45 :: fmtNat n.natAbs else fmtNat n.natAbs

def fmtNat4 (n : Nat) : Bytes :=
  List.replicate (4 - (fmtNat n).length) 48 ++ fmtNat n

def hexDigit (d : Nat) : UInt8 := if d < 10 then (48 + d).toUInt8 else (87 + d).toUInt8

def hexFixed : Nat → Nat → Bytes
  | 0, _ => []
  | k + 1, n => hexFixed k (n / 16) ++ [hexDigit (n % 16)]

def fmtHex16 (h : UInt64) : Bytes := hexFixed 16 h.toNat

/-- `strstr`: the rest of `hay` from the first occurrence of `needle`, `none` for `NULL`. -/
def strstr : Bytes → Bytes → Option Bytes
  | [], needle => if needle = [] then some [] else none
  | c :: s, needle => if needle.isPrefixOf (c :: s) then some (c :: s) else strstr s needle

def takeSign : Bytes → Bool × Bytes
  | c :: s => if c = 45 then (true, s) else if c = 43 then (false, s) else (false, c :: s)
  | [] => (false, [])

def dropHexPrefix : Bytes → Bytes
  | z :: x :: d :: s => if z = 48 ∧ tolower x = 120 ∧ isxdigit d then d :: s else z :: x :: d :: s
  | s => s

def digitsVal (b : Nat) (s : Bytes) : Nat := s.foldl (fun n c => n * b + hexval c) 0

def strtoull16 (s : Bytes) : UInt64 :=
  let (neg, t) := takeSign (s.dropWhile isspace)
  let n := digitsVal 16 ((dropHexPrefix t).takeWhile isxdigit)
  if 2 ^ 64 ≤ n then UInt64.ofNat (2 ^ 64 - 1)
  else if neg then 0 - UInt64.ofNat n else UInt64.ofNat n

def strtol10 (s : Bytes) : Int :=
  let (neg, t) := takeSign (s.dropWhile isspace)
  let n := digitsVal 10 (t.takeWhile isdigit)
  if neg then max (-(n : Int)) (-2 ^ 63) else min (n : Int) (2 ^ 63 - 1)

def memcpy (buf : Bytes) (off : Nat) (src : Bytes) : Bytes :=
  buf.take off ++ src ++ buf.drop (off + src.length)

def memmove (buf : Bytes) (off n : Nat) : Bytes := (buf.drop off).take n ++ buf.drop n

/-- `strchr(buf, c)`: where in the string the character stands first. -/
def strchr (buf : Bytes) (c : UInt8) : Option Nat := (cstr buf).findIdx? (· = c)

end CLib
