import Retrace.CLib.CString

/-!
# Base 64

The encoding of `EVP_EncodeBlock` and the decoding of `EVP_DecodeBlock`: three bytes are four digits of
six bits, and a last group of one or two bytes is filled up with zeros and its text with `=`, which the
decoder takes for zeros again.
-/

namespace CLib

open List

def base64Digit (n : Nat) : UInt8 :=
  if n < 26 then (65 + n).toUInt8
  else if n < 52 then (71 + n).toUInt8
  else if n < 62 then (n - 4).toUInt8
  else if n = 62 then 43 else 47

/-- The digit of a character; the padding counts as 0. -/
def base64Value (c : UInt8) : Nat :=
  if 65 ≤ c ∧ c ≤ 90 then c.toNat - 65
  else if 97 ≤ c ∧ c ≤ 122 then c.toNat - 71
  else if 48 ≤ c ∧ c ≤ 57 then c.toNat + 4
  else if c = 43 then 62
  else if c = 47 then 63 else 0

def encodeGroup (a b c : UInt8) : Bytes :=
  let n := a.toNat * 65536 + b.toNat * 256 + c.toNat
  [base64Digit (n / 262144), base64Digit (n / 4096 % 64), base64Digit (n / 64 % 64), base64Digit (n % 64)]

def base64Encode : Bytes → Bytes
  | a :: b :: c :: s => encodeGroup a b c ++ base64Encode s
  | [a, b] => (encodeGroup a b 0).take 3 ++ [61]
  | [a] => (encodeGroup a 0 0).take 2 ++ [61, 61]
  | [] => []

def base64Decode : Bytes → Option Bytes
  | w :: x :: y :: z :: s => (base64Decode s).map fun rest =>
      let n := base64Value w * 262144 + base64Value x * 4096 + base64Value y * 64 + base64Value z
      UInt8.ofNat (n / 65536) :: UInt8.ofNat (n / 256) :: UInt8.ofNat n :: rest
  | [] => some []
  | _ => none

def base64Fill (s : Bytes) : Nat := (3 - s.length % 3) % 3

def isBase64Digit (c : UInt8) : Bool :=
  (65 ≤ c && c ≤ 90) || (97 ≤ c && c ≤ 122) || (48 ≤ c && c ≤ 57) || c == 43 || c == 47

theorem isBase64Digit_digit (hn : n < 64) : isBase64Digit (base64Digit n) = true := by
  revert n
  decide

theorem base64Value_padding : base64Value 61 = 0 := rfl

theorem base64Value_digit (hn : n < 64) : base64Value (base64Digit n) = n := by
  revert n
  decide

theorem base64Decode_group
    (h : base64Value w * 262144 + base64Value x * 4096 + base64Value y * 64 + base64Value z =
      a.toNat * 65536 + b.toNat * 256 + c.toNat) (s : Bytes) :
    base64Decode (w :: x :: y :: z :: s) = (base64Decode s).map fun rest => a :: b :: c :: rest := by
  have ha := a.toNat_lt
  have hb := b.toNat_lt
  have hc := c.toNat_lt
  have h1 : UInt8.ofNat ((a.toNat * 65536 + b.toNat * 256 + c.toNat) / 65536) = a := by
    rw [← UInt8.toNat_inj, UInt8.toNat_ofNat']
    omega
  have h2 : UInt8.ofNat ((a.toNat * 65536 + b.toNat * 256 + c.toNat) / 256) = b := by
    rw [← UInt8.toNat_inj, UInt8.toNat_ofNat']
    omega
  have h3 : UInt8.ofNat (a.toNat * 65536 + b.toNat * 256 + c.toNat) = c := by
    rw [← UInt8.toNat_inj, UInt8.toNat_ofNat']
    omega
  simp only [base64Decode, h, h1, h2, h3]

theorem base64Decode_encode (s : Bytes) :
    base64Decode (base64Encode s) = some (s ++ replicate (base64Fill s) 0) := by
  induction s using base64Encode.induct with
  | case1 a b c s ih =>
    have ha := a.toNat_lt
    have hb := b.toNat_lt
    have hc := c.toNat_lt
    have hfill : base64Fill (a :: b :: c :: s) = base64Fill s := by
      simp only [base64Fill, length_cons]
      omega
    rw [base64Encode, encodeGroup, cons_append, cons_append, cons_append, cons_append,
      nil_append, base64Decode_group (a := a) (b := b) (c := c), ih, hfill]
    · rfl
    · simp (disch := omega) only [base64Value_digit]
      omega
  | case2 a b =>
    have ha := a.toNat_lt
    have hb := b.toNat_lt
    refine (base64Decode_group (a := a) (b := b) (c := 0) ?_ []).trans rfl
    simp (disch := omega) only [base64Value_digit, base64Value_padding, UInt8.toNat_zero]
    omega
  | case3 a =>
    have ha := a.toNat_lt
    refine (base64Decode_group (a := a) (b := 0) (c := 0) ?_ []).trans rfl
    simp (disch := omega) only [base64Value_digit, base64Value_padding, UInt8.toNat_zero]
    omega
  | case4 => rfl

theorem base64Encode_length (s : Bytes) : (base64Encode s).length = 4 * ((s.length + 2) / 3) := by
  induction s using base64Encode.induct with
  | case1 a b c s ih =>
    simp only [base64Encode, encodeGroup, length_append, length_cons, length_nil, ih]
    omega
  | case2 a b => simp [base64Encode, encodeGroup]
  | case3 a => simp [base64Encode, encodeGroup]
  | case4 => rfl

theorem base64Encode_padded (s : Bytes) : ∃ body, base64Encode s = body ++ replicate (base64Fill s) 61 ∧
      ∀ c ∈ body, isBase64Digit c = true := by
  have hdigit : ∀ {a b c : UInt8}, ∀ x ∈ encodeGroup a b c, isBase64Digit x = true := by
    intro a b c x hx
    have ha := a.toNat_lt
    have hb := b.toNat_lt
    have hc := c.toNat_lt
    simp only [encodeGroup, mem_cons, not_mem_nil, or_false] at hx
    rcases hx with rfl | rfl | rfl | rfl <;> exact isBase64Digit_digit (by omega)
  induction s using base64Encode.induct with
  | case1 a b c s ih =>
    obtain ⟨body, hs, hbody⟩ := ih
    have hfill : base64Fill (a :: b :: c :: s) = base64Fill s := by
      simp only [base64Fill, length_cons]
      omega
    refine ⟨encodeGroup a b c ++ body, by rw [base64Encode, hs, hfill, append_assoc], ?_⟩
    intro x hx
    rcases mem_append.mp hx with hx | hx
    · exact hdigit x hx
    · exact hbody x hx
  | case2 a b => exact ⟨_, rfl, fun x hx => hdigit x (mem_of_mem_take hx)⟩
  | case3 a => exact ⟨_, rfl, fun x hx => hdigit x (mem_of_mem_take hx)⟩
  | case4 => exact ⟨[], rfl, by simp⟩

end CLib
