import Retrace.CLib.CString

/-!
# `strtod` and `%.17g`

The syntax `strtod` accepts (decimal and hexadecimal numbers, infinities and not-a-numbers, in the
C locale), the double it rounds to and the range error it reports. A finite double is represented by
the rational number it denotes.

The conversion with 17 significant digits rounds to the nearest even; it has no exponent while the decimal point
stands within or just in front of the digits, and no trailing zeros. The zero that is negative is printed like
the other one.
-/

namespace CLib

def numChar (c : UInt8) : Bool :=
  isdigit c || (97 ≤ tolower c && tolower c ≤ 122) || c == 46 || c == 43 || c == 45 ||
    c == 40 || c == 41 || c == 95

structure Strtod where
  /-- The double, `none` for an infinity or a not-a-number. -/
  value : Option ℚ
  /-- The number of characters converted; 0 when there is no number. -/
  consumed : Nat
  /-- Whether `errno` is set to `ERANGE`. -/
  erange : Bool

def roundHalfEven (q : ℚ) : ℤ :=
  if q - ⌊q⌋ < 1 / 2 then ⌊q⌋
  else if 1 / 2 < q - ⌊q⌋ then ⌊q⌋ + 1
  else if ⌊q⌋ % 2 = 0 then ⌊q⌋ else ⌊q⌋ + 1

def roundDouble (q : ℚ) : ℚ :=
  if q = 0 then 0
  else
    let e : ℤ := max (Int.log 2 |q| - 52) (-1074)
    roundHalfEven (q / 2 ^ e) * 2 ^ e

def scaled (mant base : Nat) (e : ℤ) : Nat × Nat := (mant * base ^ e.toNat, base ^ (-e).toNat)

/-- The range error for `num / den`: the value overflows, or it is below the normal numbers and is
not a double. -/
def rangeError (num den : Nat) : Bool :=
  decide ((2 ^ 1024 - 2 ^ 970) * den ≤ num) ||
    decide (0 < num ∧ num * 2 ^ 1022 < den ∧ num * 2 ^ 1074 % den ≠ 0)

/-- An optional exponent after the letter `marker`: its value and its length. -/
def scanExponent (marker : UInt8) : Bytes → ℤ × Nat
  | [] => (0, 0)
  | c :: t =>
    let (neg, u) := takeSign t
    let d := u.takeWhile isdigit
    if tolower c = marker ∧ d ≠ [] then
      (if neg then -(digitsVal 10 d : ℤ) else digitsVal 10 d, 1 + (t.length - u.length) + d.length)
    else (0, 0)

def scanMantissa (digit : UInt8 → Bool) (s : Bytes) : Bytes × Bytes × Nat :=
  let i := s.takeWhile digit
  match s.dropWhile digit with
  | c :: t =>
    let f := t.takeWhile digit
    if c = 46 ∧ (i ≠ [] ∨ f ≠ []) then (i, f, i.length + 1 + f.length) else (i, [], i.length)
  | [] => (i, [], i.length)

def scanNumber (digit : UInt8 → Bool) (b eb perDigit : Nat) (marker : UInt8) (neg : Bool)
    (skip : Nat) (s : Bytes) : Strtod :=
  let (i, f, len) := scanMantissa digit s
  if len = 0 then ⟨some 0, 0, false⟩
  else
    let (e, elen) := scanExponent marker (s.drop len)
    let (num, den) := scaled (digitsVal b (i ++ f)) eb (e - perDigit * f.length)
    let q : ℚ := (num : ℚ) / den
    ⟨some (roundDouble (if neg then -q else q)), skip + len + elen, rangeError num den⟩

def nanTail (s : Bytes) : Nat :=
  match s with
  | c :: t =>
    let body := t.takeWhile fun c => c ≠ 40 && c ≠ 41 && c ≠ 43 && c ≠ 45 && c ≠ 46
    if c = 40 ∧ (t.drop body.length).head? = some 41 then body.length + 2 else 0
  | [] => 0

def strtodRun (r : Bytes) : Strtod :=
  let (neg, s) := takeSign r
  let sign := r.length - s.length
  let low := s.map tolower
  if (bytes "infinity").isPrefixOf low then ⟨none, sign + 8, false⟩
  else if (bytes "inf").isPrefixOf low then ⟨none, sign + 3, false⟩
  else if (bytes "nan").isPrefixOf low then ⟨none, sign + 3 + nanTail (s.drop 3), false⟩
  else if (bytes "0x").isPrefixOf low ∧ (scanMantissa isxdigit (s.drop 2)).2.2 ≠ 0 then
    scanNumber isxdigit 16 2 4 112 neg (sign + 2) (s.drop 2)
  else scanNumber isdigit 10 10 1 101 neg sign s

/-- `strtod`. No number extends beyond the run of number characters it starts in, so only that run
is looked at. -/
def strtod (s : Bytes) : Strtod :=
  let t := s.dropWhile isspace
  let r := strtodRun (t.takeWhile numChar)
  if r.consumed = 0 then r else { r with consumed := s.length - t.length + r.consumed }

/-- The conversion of a double to `uint64_t`: towards zero. -/
def doubleToU64 (d : ℚ) : UInt64 := UInt64.ofInt (if 0 ≤ d then ⌊d⌋ else ⌈d⌉)

/-- The conversion of a double to `long`: towards zero. C leaves it open out of range, where x86-64 gives
`LONG_MIN`. -/
def doubleToLong (d : ℚ) : Int64 :=
  let n := if 0 ≤ d then ⌊d⌋ else ⌈d⌉
  if -2 ^ 63 ≤ n ∧ n < 2 ^ 63 then Int64.ofInt n else Int64.minValue

/-- The first 17 digits of a positive number as an integer, and the decimal exponent of the first of
them. Rounding up can carry into the next power of ten. -/
def digits17 (a : ℚ) : Nat × ℤ :=
  let x := Int.log 10 a
  let m := (roundHalfEven (a / 10 ^ (x - 16))).toNat
  if m = 10 ^ 17 then (10 ^ 16, x + 1) else (m, x)

def stripZeros (s : Bytes) : Bytes := (s.reverse.dropWhile (· = 48)).reverse

def pointed (int frac : Bytes) : Bytes :=
  int ++ if stripZeros frac = [] then [] else 46 :: stripZeros frac

def fmtExponent (e : ℤ) : Bytes :=
  101 :: (if e < 0 then 45 else 43) :: ((if e.natAbs < 10 then [48] else []) ++ fmtNat e.natAbs)

def fmtG17Pos (a : ℚ) : Bytes :=
  let (m, x) := digits17 a
  let ds := fmtNat m
  if 0 ≤ x ∧ x < 17 then pointed (ds.take (x.toNat + 1)) (ds.drop (x.toNat + 1))
  else if -4 ≤ x ∧ x < 0 then pointed [48] (List.replicate ((-x).toNat - 1) 48 ++ ds)
  else pointed (ds.take 1) (ds.drop 1) ++ fmtExponent x

def fmtG17 (q : ℚ) : Bytes :=
  if q = 0 then [48] else if q < 0 then 45 :: fmtG17Pos (-q) else fmtG17Pos q

end CLib
