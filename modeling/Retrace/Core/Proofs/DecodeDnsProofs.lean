import Retrace.Core.DecodeDns

/-!
# What the decoding of a message depends on

The parser of names is bounded by 65536 and not by the length of the message, so a name that is not closed
inside the message goes on in the memory behind it. A malformed name leaves the array without an end, and what
was on the stack before is logged with it.
-/

namespace Retrace.Core

open CLib List

/-- The outcome is a function of the first `len` bytes: no other memory with them, whatever the stack holds,
gives another one. -/
def DependsOnMessage (buf : Packet) (len : Int) : Prop :=
  ∀ (stack stack' : Nat → UInt8) (buf' : Packet), (∀ i : Nat, (i : Int) < len → buf i = buf' i) →
    ia_decode_dns stack buf len = ia_decode_dns stack' buf' len

/-- The type behind a name that ends in front of `e` lies in the message, or is not read. -/
def TypeInside (len e : Nat) : Prop := e + 2 ≤ len ∨ DNS_PARSE_BOUND < e + 4

/-- The name at `pos` ends in front of `e`: with the empty label, or with a pointer. -/
def EndsAt (buf : Packet) (pos e : Nat) : Prop :=
  buf pos = 0 ∧ e = pos + 1 ∨ buf pos &&& 0xC0 = 0xC0 ∧ e = pos + 2

def LabelAt (buf : Packet) (pos : Nat) : Prop :=
  buf pos ≠ 0 ∧ buf pos ≤ 63 ∧ pos + 1 + (buf pos).toNat ≤ DNS_PARSE_BOUND

def MalformedAt (buf : Packet) (pos : Nat) : Prop := (∀ e, ¬EndsAt buf pos e) ∧ ¬LabelAt buf pos

/-- The message determines the question whose name goes on at `pos`, with `out` written of it: the name ends or is
malformed inside of it. A malformed name must not show the stack: nothing is written yet, or a zero byte. The last
two cases are at the bound of the parser. -/
inductive Determined (buf : Packet) (len : Nat) : Nat → Bytes → Nat → Prop
  | ends (hpos : pos < len) (h : EndsAt buf pos e) (htype : TypeInside len e) : Determined buf len pos out k
  | malformed (hpos : pos < len) (h : MalformedAt buf pos) (hout : out = [] ∨ 0 ∈ out) :
      Determined buf len pos out k
  | label (hpos : pos < len) (h : LabelAt buf pos)
      (hnext : Determined buf len (pos + 1 + (buf pos).toNat)
        (qname_add buf DNS_MAX_NAME (pos + 1) (buf pos).toNat out k) (k + 1)) :
      Determined buf len pos out k
  | bound (h : DNS_PARSE_BOUND ≤ pos) : Determined buf len pos out k
  | late (hpos : len ≤ pos) (h : DNS_PARSE_BOUND ≤ pos + 4) (hout : 0 ∈ out) : Determined buf len pos out k

variable {buf buf' : Packet} {len pos count : Nat} {out : Bytes}

def questionAt (stack : Nat → UInt8) (buf : Packet) (fuel pos : Nat) (out : Bytes) (count : Nat) : Bytes × Nat :=
  let parsed := parse_qname_loop buf DNS_PARSE_BOUND DNS_MAX_NAME fuel pos out count
  (qname_text stack parsed, parsed.toOption.elim 0 fun x => dns_qtype buf x.1)

theorem and_192_of_le_63 {c : UInt8} (hc : c ≤ 63) : c &&& 0xC0 ≠ 0xC0 := by
  intro h
  have hle : (c &&& 0xC0).toNat ≤ c.toNat := by
    rw [UInt8.toNat_and]
    exact Nat.and_le_left
  have hc' := UInt8.le_iff_toNat_le.mp hc
  rw [h] at hle
  exact absurd (hle.trans hc') (by decide)

theorem EndsAt.not_label (h : EndsAt buf pos e) : ¬LabelAt buf pos := by
  rintro ⟨hne, hle, -⟩
  exact h.elim (fun h => hne h.1) fun h => and_192_of_le_63 hle h.1

theorem EndsAt.eq (h : EndsAt buf pos e) (h' : EndsAt buf pos e') : e = e' := by
  rcases h with ⟨h, rfl⟩ | ⟨h, rfl⟩ <;> rcases h' with ⟨h', rfl⟩ | ⟨h', rfl⟩
  · rfl
  · simp [h] at h'
  · simp [h'] at h
  · rfl

theorem EndsAt.congr (h : EndsAt buf pos e) (hbyte : buf' pos = buf pos) : EndsAt buf' pos e := by
  rwa [EndsAt, hbyte]

theorem questionAt_bound (h : DNS_PARSE_BOUND ≤ pos) :
    questionAt stack buf fuel pos out count = (out.takeWhile (· ≠ 0), 0) := by
  have hok : parse_qname_loop buf DNS_PARSE_BOUND DNS_MAX_NAME fuel pos out count = .ok (pos, out) := by
    cases fuel with
    | zero => rfl
    | succ fuel => rw [parse_qname_loop, if_neg (by omega)]
  simp only [questionAt, hok, qname_text, Except.toOption, Option.elim, dns_qtype]
  rw [if_neg (by omega)]

section

variable (hpos : pos < DNS_PARSE_BOUND)
include hpos

theorem questionAt_ends (h : EndsAt buf pos e) :
    questionAt stack buf (fuel + 1) pos out count = (out.takeWhile (· ≠ 0), dns_qtype buf e) := by
  rw [questionAt, parse_qname_loop, if_pos hpos]
  rcases h with ⟨h, rfl⟩ | ⟨h, rfl⟩
  · simp [h, qname_text, Except.toOption]
  · have hne : buf pos ≠ 0 := fun h0 => by simp [h0] at h
    simp [h, hne, qname_text, Except.toOption]

theorem questionAt_label (h : LabelAt buf pos) :
    questionAt stack buf (fuel + 1) pos out count = questionAt stack buf fuel (pos + 1 + (buf pos).toNat)
      (qname_add buf DNS_MAX_NAME (pos + 1) (buf pos).toNat out count) (count + 1) := by
  obtain ⟨hne, hlen, hend⟩ := h
  rw [questionAt, parse_qname_loop, if_pos hpos]
  dsimp only
  rw [if_neg hne, if_neg (and_192_of_le_63 hlen), if_neg (UInt8.not_lt.mpr hlen), if_neg (by omega)]
  rfl

theorem questionAt_malformed (h : MalformedAt buf pos) :
    questionAt stack buf (fuel + 1) pos out count = (qname_text stack (.error out), 0) := by
  obtain ⟨hends, hlabel⟩ := h
  have hne : buf pos ≠ 0 := fun h => hends _ (.inl ⟨h, rfl⟩)
  rw [questionAt, parse_qname_loop, if_pos hpos]
  dsimp only
  rw [if_neg hne, if_neg fun h => hends _ (.inr ⟨h, rfl⟩)]
  split_ifs with hbig hend
  · rfl
  · rfl
  · exact absurd ⟨hne, UInt8.not_lt.mp hbig, not_lt.mp hend⟩ hlabel

end

theorem byte_cases (buf : Packet) (pos : Nat) :
    (∃ e, EndsAt buf pos e) ∨ LabelAt buf pos ∨ MalformedAt buf pos := by
  rw [MalformedAt, ← not_exists]
  tauto

/-- How much is written when the parser is at `pos`. -/
structure Written (pos : Nat) (out : Bytes) (count : Nat) : Prop where
  start : DNS_HEADER_LEN ≤ pos
  length : out.length = min (DNS_MAX_NAME - 1) (pos - 13)
  first : 0 < count ↔ DNS_HEADER_LEN < pos

theorem Written.add (h : Written pos out count) (buf : Packet) (n : Nat) :
    Written (pos + 1 + n) (qname_add buf DNS_MAX_NAME (pos + 1) n out count) (count + 1) := by
  obtain ⟨hstart, hlength, hfirst⟩ := h
  have hcap : DNS_MAX_NAME = 256 ∧ DNS_HEADER_LEN = 12 := ⟨rfl, rfl⟩
  refine ⟨by omega, ?_, by omega⟩
  unfold qname_add
  dsimp only
  rw [length_append, length_take, length_map, length_range]
  split_ifs with hdot
  · rw [length_append, length_singleton]
    omega
  · omega

theorem qname_add_congr (h : ∀ i < len, buf i = buf' i) (hn : pos + n ≤ len ∨ out.length = DNS_MAX_NAME - 1) :
    qname_add buf DNS_MAX_NAME pos n out count = qname_add buf' DNS_MAX_NAME pos n out count := by
  unfold qname_add
  rcases hn with hn | hfull
  · have hlabel : ((range n).map fun i => buf (pos + i)) = (range n).map fun i => buf' (pos + i) :=
      map_congr_left fun i hi => h _ (by have := mem_range.mp hi; omega)
    rw [hlabel]
  · simp [hfull]

theorem read_u16be_congr {i : Nat} (h : ∀ i < len, buf i = buf' i) (hi : i + 2 ≤ len) :
    read_u16be buf i = read_u16be buf' i := by
  rw [read_u16be, read_u16be, h i (by omega), h (i + 1) (by omega)]

theorem qtype_iff (he : DNS_HEADER_LEN < e) :
    (∀ buf', (∀ i < len, buf i = buf' i) → dns_qtype buf e = dns_qtype buf' e) ↔ TypeInside len e := by
  unfold dns_qtype TypeInside
  constructor
  · intro h
    by_contra hnot
    obtain ⟨hlen, hbound⟩ := not_or.mp hnot
    obtain ⟨c, hc⟩ : ∃ c, c ≠ buf (e + 1) :=
        (em (buf (e + 1) = 0)).elim (fun h => ⟨1, by simp [h]⟩) fun h => ⟨0, Ne.symm h⟩
    have := h (Function.update buf (e + 1) c) fun i hi => by rw [Function.update_of_ne (by omega)]
    rw [if_pos ⟨he, by omega⟩, if_pos ⟨he, by omega⟩, read_u16be, read_u16be, Function.update_self,
      Function.update_of_ne (by omega), Nat.add_left_cancel_iff, UInt8.toNat_inj] at this
    exact hc this.symm
  · rintro (hlen | hbound) buf' h
    · rw [read_u16be_congr h hlen]
    · rw [if_neg (by omega), if_neg (by omega)]

theorem error_text (h : 0 ∈ out) (stack : Nat → UInt8) :
    qname_text stack (.error out) = out.takeWhile (· ≠ 0) := by
  obtain ⟨a, b, rfl, ha⟩ := eq_append_cons_of_mem h
  have hmem : ∀ x ∈ a, (decide (x ≠ 0)) = true := fun x hx => by simpa using fun h0 : x = 0 => ha (h0 ▸ hx)
  rw [takeWhile_append_of_pos hmem]
  cases a with
  | nil => rfl
  | cons c a =>
    rw [cons_append, qname_text, ← cons_append, append_assoc, takeWhile_append_of_pos hmem]
    · simp
    · simp

theorem error_text_iff (hlen : out.length < DNS_MAX_NAME) :
    (∀ stack stack', qname_text stack (.error out) = qname_text stack' (.error out)) ↔ out = [] ∨ 0 ∈ out := by
  rcases eq_or_ne out [] with rfl | hne
  · simp [qname_text]
  have htext : ∀ stack, qname_text stack (.error out) =
      (out ++ (range (DNS_MAX_NAME - out.length)).map fun i => stack (out.length + i)).takeWhile (· ≠ 0) := by
    intro stack
    cases out with
    | nil => exact absurd rfl hne
    | cons c out => rfl
  simp only [htext, hne, false_or]
  constructor
  · intro h
    by_contra hnot
    have hmem : ∀ x ∈ out, (decide (x ≠ 0)) = true := fun x hx => by
      simpa using fun h0 : x = 0 => hnot (h0 ▸ hx)
    have := h (fun _ => 0) (fun _ => 1)
    obtain ⟨n, hn⟩ : ∃ n, DNS_MAX_NAME - out.length = n + 1 := ⟨_, (Nat.succ_pred (by omega)).symm⟩
    rw [takeWhile_append_of_pos hmem, takeWhile_append_of_pos hmem, hn] at this
    simp [range_succ_eq_map] at this
  · intro h stack stack'
    rw [← htext, ← htext, error_text h, error_text h]

def Same (buf : Packet) (len fuel pos : Nat) (out : Bytes) (count : Nat) : Prop :=
  ∀ stack stack' buf', (∀ i < len, buf i = buf' i) →
    questionAt stack buf fuel pos out count = questionAt stack' buf' fuel pos out count

/-- The memory with an end of the name at `p` and the type `c`. -/
def endingAt (buf : Packet) (p : Nat) (c : UInt8) : Packet :=
  fun i => if i < p then buf i else if i = p + 2 then c else 0

/-- A name that goes on behind the message, where a type can still be read: it may end there, with any type. -/
theorem not_same_of_free (hlen : len ≤ p) (hp : p + 5 ≤ DNS_PARSE_BOUND) (hstart : DNS_HEADER_LEN ≤ p)
    (hreach : ∀ stack buf', (∀ i < p, buf i = buf' i) →
      questionAt stack buf' fuel pos out count = questionAt stack buf' (fuel' + 1) p out' count') :
    ¬Same buf len fuel pos out count := by
  intro h
  have hbelow : ∀ c, ∀ i < p, buf i = endingAt buf p c i := fun c i hi => (if_pos hi).symm
  have htype : ∀ c, questionAt (fun _ => 0) (endingAt buf p c) fuel pos out count =
      (out'.takeWhile (· ≠ 0), c.toNat) := by
    intro c
    have hzero : EndsAt (endingAt buf p c) p (p + 1) := .inl ⟨by simp [endingAt], rfl⟩
    rw [hreach _ _ (hbelow c), questionAt_ends (by omega) hzero, dns_qtype, if_pos ⟨by omega, by omega⟩]
    have hbehind : ¬p + 1 + 1 < p := by omega
    simp [read_u16be, endingAt, hbehind]
  have hsame := fun c => h (fun _ => 0) (fun _ => 0) (endingAt buf p c) fun i hi => hbelow c i (by omega)
  have := (hsame 0).symm.trans (hsame 1)
  rw [htype, htype] at this
  simp at this

/-- Near the bound no type is read, and of a name that is full nothing is written. -/
theorem questionAt_late (h : DNS_PARSE_BOUND ≤ pos + 4) (hfuel : DNS_PARSE_BOUND ≤ pos + fuel)
    (hfull : out.length = DNS_MAX_NAME - 1) (hout : 0 ∈ out) :
    questionAt stack buf fuel pos out count = (out.takeWhile (· ≠ 0), 0) := by
  have htype : ∀ e, pos < e → dns_qtype buf e = 0 := fun e he => by rw [dns_qtype, if_neg (by omega)]
  induction fuel generalizing pos count with
  | zero => exact questionAt_bound hfuel
  | succ fuel ih =>
    rcases le_or_gt DNS_PARSE_BOUND pos with hbound | hbound
    · exact questionAt_bound hbound
    rcases byte_cases buf pos with ⟨e, hbyte⟩ | hbyte | hbyte
    · rw [questionAt_ends hbound hbyte, htype _ (by rcases hbyte with h | h <;> omega)]
    · have hadd : qname_add buf DNS_MAX_NAME (pos + 1) (buf pos).toNat out count = out := by
        simp [qname_add, hfull]
      rw [questionAt_label hbound hbyte, hadd]
      exact ih (by omega) (by omega) fun e he => htype e (by omega)
    · rw [questionAt_malformed hbound hbyte, error_text hout]

section

variable (hbound : pos < DNS_PARSE_BOUND)
include hbound

/-- Behind the message: a type can still be read, or near the bound the name must not show the stack. -/
theorem same_behind_iff (hw : Written pos out count) (hfuel : DNS_PARSE_BOUND ≤ pos + (fuel + 1)) (hlen : len ≤ pos) :
    Same buf len (fuel + 1) pos out count ↔ Determined buf len pos out count := by
  have hcap : DNS_MAX_NAME = 256 ∧ DNS_PARSE_BOUND = 65536 := ⟨rfl, rfl⟩
  have hlength := hw.length
  rcases Nat.lt_or_ge (pos + 4) DNS_PARSE_BOUND with hfar | hnear
  · refine iff_of_false (not_same_of_free hlen hfar hw.start fun _ _ _ => rfl) ?_
    rintro (_ | _ | _ | _ | _) <;> omega
  have hfull : out.length = DNS_MAX_NAME - 1 := by omega
  constructor
  · intro h
    -- A byte behind the message that is no length makes the name malformed.
    have hbad : MalformedAt (Function.update buf pos 64) pos := by
      simp only [MalformedAt, EndsAt, LabelAt, Function.update_self]
      exact ⟨fun e h => h.elim (fun h => absurd h.1 (by decide)) fun h => absurd h.1 (by decide),
        fun h => absurd h.2.1 (by decide)⟩
    have hagree : ∀ i < len, buf i = Function.update buf pos 64 i := fun i hi => by
      rw [Function.update_of_ne (by omega)]
    refine .late hlen hnear (((error_text_iff (by omega)).mp fun stack stack' => ?_).resolve_left ?_)
    · have := (h stack stack _ hagree).symm.trans (h stack stack' _ hagree)
      rw [questionAt_malformed hbound hbad, questionAt_malformed hbound hbad] at this
      exact congrArg Prod.fst this
    · rintro rfl
      exact absurd hfull (by decide)
  · rintro (_ | _ | _ | _ | ⟨-, -, hout⟩) stack stack' buf' - <;> try omega
    rw [questionAt_late hnear hfuel hfull hout, questionAt_late hnear hfuel hfull hout]

variable (hlen : pos < len)
include hlen

theorem same_ends_iff (hstart : DNS_HEADER_LEN ≤ pos) (h : EndsAt buf pos e) :
    Same buf len (fuel + 1) pos out count ↔ Determined buf len pos out count := by
  have hdet : Determined buf len pos out count ↔ TypeInside len e := by
    refine ⟨?_, .ends hlen h⟩
    rintro (⟨-, h', htype⟩ | ⟨-, h', -⟩ | ⟨-, h', -⟩ | hge | ⟨hge, -, -⟩)
    · rwa [h.eq h']
    · exact absurd h (h'.1 e)
    · exact absurd h' h.not_label
    · omega
    · omega
  have he : DNS_HEADER_LEN < e := by rcases h with h | h <;> omega
  have hends : ∀ buf' : Packet, (∀ i < len, buf i = buf' i) → EndsAt buf' pos e :=
    fun buf' hagree => h.congr (hagree pos hlen).symm
  rw [hdet, ← @qtype_iff buf len e he]
  constructor
  · intro hsame buf' hagree
    have := hsame (fun _ => 0) (fun _ => 0) buf' hagree
    rw [questionAt_ends hbound h, questionAt_ends hbound (hends _ hagree)] at this
    exact congrArg Prod.snd this
  · intro htype stack stack' buf' hagree
    rw [questionAt_ends hbound h, questionAt_ends hbound (hends _ hagree), htype _ hagree]

theorem same_malformed_iff (hout : out.length < DNS_MAX_NAME) (h : MalformedAt buf pos) :
    Same buf len (fuel + 1) pos out count ↔ Determined buf len pos out count := by
  have hdet : Determined buf len pos out count ↔ out = [] ∨ 0 ∈ out := by
    refine ⟨?_, .malformed hlen h⟩
    rintro (⟨-, h', -⟩ | ⟨-, -, hout⟩ | ⟨-, h', -⟩ | hge | ⟨hge, -, -⟩)
    · exact absurd h' (h.1 _)
    · exact hout
    · exact absurd h' h.2
    · omega
    · omega
  rw [hdet, ← error_text_iff hout]
  constructor
  · intro hsame stack stack'
    have := hsame stack stack' buf fun _ _ => rfl
    rw [questionAt_malformed hbound h, questionAt_malformed hbound h] at this
    exact congrArg Prod.fst this
  · intro htext stack stack' buf' hagree
    have h' : MalformedAt buf' pos := by
      simpa only [MalformedAt, EndsAt, LabelAt, hagree pos hlen] using h
    rw [questionAt_malformed hbound h, questionAt_malformed hbound h', htext stack stack']

end

theorem same_iff (hw : Written pos out count) (hfuel : DNS_PARSE_BOUND ≤ pos + fuel) :
    Same buf len fuel pos out count ↔ Determined buf len pos out count := by
  have hcap : DNS_MAX_NAME = 256 ∧ DNS_HEADER_LEN = 12 ∧ DNS_PARSE_BOUND = 65536 := ⟨rfl, rfl, rfl⟩
  have hlength := hw.length
  induction fuel generalizing pos out count with
  | zero =>
    have hbound : DNS_PARSE_BOUND ≤ pos := hfuel
    refine iff_of_true (fun stack stack' buf' _ => ?_) (.bound hbound)
    rw [questionAt_bound hbound, questionAt_bound hbound]
  | succ fuel ih =>
    rcases le_or_gt DNS_PARSE_BOUND pos with hbound | hbound
    · refine iff_of_true (fun stack stack' buf' _ => ?_) (.bound hbound)
      rw [questionAt_bound hbound, questionAt_bound hbound]
    rcases le_or_gt len pos with hlen | hlen
    · exact same_behind_iff hbound hw hfuel hlen
    rcases byte_cases buf pos with ⟨e, h⟩ | h | h
    · exact same_ends_iff hbound hlen hw.start h
    · have hdet : Determined buf len pos out count ↔ Determined buf len (pos + 1 + (buf pos).toNat)
          (qname_add buf DNS_MAX_NAME (pos + 1) (buf pos).toNat out count) (count + 1) := by
        refine ⟨?_, .label hlen h⟩
        rintro (⟨-, h', -⟩ | ⟨-, h', -⟩ | ⟨-, -, hnext⟩ | hge | ⟨hge, -, -⟩)
        · exact absurd h h'.not_label
        · exact absurd h h'.2
        · exact hnext
        · omega
        · omega
      have hstep : ∀ stack buf', (∀ i < pos + 1, buf i = buf' i) →
          questionAt stack buf' (fuel + 1) pos out count = questionAt stack buf' fuel (pos + 1 + (buf pos).toNat)
            (qname_add buf' DNS_MAX_NAME (pos + 1) (buf pos).toNat out count) (count + 1) := by
        intro stack buf' hagree
        have hsame := (hagree pos (by omega)).symm
        rw [questionAt_label hbound (by rwa [LabelAt, hsame]), hsame]
      have hsmall : (buf pos).toNat ≤ 63 := UInt8.le_iff_toNat_le.mp h.2.1
      have hnext := hw.add buf (buf pos).toNat
      rw [hdet]
      by_cases hin : pos + 1 + (buf pos).toNat ≤ len ∨ out.length = DNS_MAX_NAME - 1
      · refine Iff.trans ?_ (ih hnext (by omega) hnext.length)
        refine forall₃_congr fun stack stack' buf' => forall_congr' fun hagree => ?_
        rw [hstep stack buf fun _ _ => rfl, hstep stack' buf' fun i hi => hagree i (by omega),
          ← qname_add_congr hagree hin]
      · -- The label ends behind the message while there is room for it.
        obtain ⟨fuel, rfl⟩ : ∃ n, fuel = n + 1 := ⟨fuel - 1, by omega⟩
        have hreach : ∀ stack buf', (∀ i < pos + 1 + (buf pos).toNat, buf i = buf' i) →
            questionAt stack buf' (fuel + 1 + 1) pos out count = questionAt stack buf' (fuel + 1) _ _ _ :=
          fun stack buf' hagree => by
            rw [hstep stack buf' fun i hi => hagree i (by omega), ← qname_add_congr hagree (.inl le_rfl)]
        refine iff_of_false (not_same_of_free (by omega) (by omega) hnext.start hreach) ?_
        rintro (_ | _ | _ | _ | _) <;> omega
    · exact same_malformed_iff hbound hlen (by omega) h

theorem dns_question_eq (hq : 0 < qdcount) :
    dns_question stack buf qdcount = questionAt stack buf DNS_PARSE_BOUND DNS_HEADER_LEN [] 0 := by
  rw [dns_question, if_pos hq]
  rfl

/-- For a message that has a header the outcome is a function of the question. -/
theorem decode_eq_iff {n : Nat} (hn : DNS_HEADER_LEN ≤ n) (h : ∀ i < n, buf i = buf' i) :
    ia_decode_dns stack buf n = ia_decode_dns stack' buf' n ↔ read_u16be buf 4 = 0 ∨
      dns_question stack buf (read_u16be buf 4) = dns_question stack' buf' (read_u16be buf 4) := by
  have hhead : DNS_HEADER_LEN = 12 := rfl
  have hshort : ¬(0 < (n : Int) ∧ (n : Int) < DNS_HEADER_LEN) := by omega
  rw [ia_decode_dns, ia_decode_dns, if_neg hshort, if_neg hshort]
  simp only [← read_u16be_congr h (by omega : 0 + 2 ≤ n), ← read_u16be_congr h (by omega : 2 + 2 ≤ n),
    ← read_u16be_congr h (by omega : 4 + 2 ≤ n), ← read_u16be_congr h (by omega : 6 + 2 ≤ n)]
  by_cases hq : read_u16be buf 4 = 0
  · simp [hq, dns_question]
  · have hnone : ¬(read_u16be buf 4 = 0 ∧ read_u16be buf 6 = 0) := fun h => hq h.1
    rw [if_neg hnone, if_neg hnone, or_iff_right hq, Prod.ext_iff]
    split_ifs <;> simp

theorem depends_iff_determined {n : Nat} (hn : DNS_HEADER_LEN ≤ n) :
    DependsOnMessage buf n ↔ read_u16be buf 4 = 0 ∨ Determined buf n DNS_HEADER_LEN [] 0 := by
  have hagree : ∀ buf' : Packet, (∀ i : Nat, (i : Int) < n → buf i = buf' i) ↔ ∀ i < n, buf i = buf' i := by simp
  by_cases hq : read_u16be buf 4 = 0
  · refine iff_of_true (fun stack stack' buf' h => ?_) (.inl hq)
    exact (decode_eq_iff hn ((hagree buf').mp h)).mpr (.inl hq)
  · rw [or_iff_right hq, ← same_iff ⟨le_rfl, rfl, by simp⟩ (Nat.le_add_left _ _)]
    refine forall₃_congr fun stack stack' buf' => ?_
    rw [hagree buf']
    refine forall_congr' fun h => ?_
    rw [decode_eq_iff hn h, or_iff_right hq, dns_question_eq (Nat.pos_of_ne_zero hq),
      dns_question_eq (Nat.pos_of_ne_zero hq)]

/-- The outcome is a function of the message exactly when nothing is decoded because it is too short, or it has a
header and no question, or its question is determined. -/
theorem depends_on_message_iff (buf : Packet) (len : Int) :
    DependsOnMessage buf len ↔ (0 < len ∧ len < DNS_HEADER_LEN) ∨
      (DNS_HEADER_LEN ≤ len ∧ (read_u16be buf 4 = 0 ∨ Determined buf len.toNat DNS_HEADER_LEN [] 0)) := by
  rcases le_or_gt (DNS_HEADER_LEN : Int) len with hlen | hlen
  · obtain ⟨n, rfl⟩ : ∃ n : Nat, len = n := ⟨len.toNat, by omega⟩
    rw [or_iff_right fun h => absurd h.2 (not_lt.mpr hlen), and_iff_right hlen, Int.toNat_natCast]
    exact depends_iff_determined (by exact_mod_cast hlen)
  · rw [or_iff_left fun h => absurd h.1 (not_le.mpr hlen), and_iff_left hlen]
    constructor
    · intro h
      by_contra hneg
      -- With no byte given, the memory may hold no question or an answer.
      have hfree : ∀ buf' : Packet, ∀ i : Nat, (i : Int) < len → buf i = buf' i := by omega
      have := (h (fun _ => 0) (fun _ => 0) (fun _ => 0) (hfree _)).symm.trans
        (h (fun _ => 0) (fun _ => 0) (fun i => if i = 7 then 1 else 0) (hfree _))
      have hskip : ¬(0 < len ∧ len < DNS_HEADER_LEN) := fun h => hneg h.1
      rw [ia_decode_dns, ia_decode_dns, if_neg hskip, if_neg hskip] at this
      simp [read_u16be] at this
    · intro h stack stack' buf' _
      rw [ia_decode_dns, ia_decode_dns, if_pos ⟨h, hlen⟩, if_pos ⟨h, hlen⟩]

/-- A message with one question whose name begins with a label of one byte. -/
def oneLabel : Packet := fun i => if i = 5 ∨ i = 12 then 1 else 0

/-- Of 13 bytes of it the label is behind them. -/
theorem decode_reads_behind : ¬DependsOnMessage oneLabel 13 := by
  have hone : oneLabel DNS_HEADER_LEN = 1 := rfl
  have hnext : ¬Determined oneLabel 13 (DNS_HEADER_LEN + 1 + (oneLabel DNS_HEADER_LEN).toNat)
      (qname_add oneLabel DNS_MAX_NAME (DNS_HEADER_LEN + 1) (oneLabel DNS_HEADER_LEN).toNat [] 0) (0 + 1) := by
    rw [hone]
    rintro (⟨h, -, -⟩ | ⟨h, -, -⟩ | ⟨h, -, -⟩ | h | ⟨-, h, -⟩) <;> exact absurd h (by decide)
  rw [show (13 : Int) = (13 : Nat) from rfl, depends_iff_determined (by decide)]
  rintro (h | ⟨-, h, -⟩ | ⟨-, h, -⟩ | ⟨-, -, h⟩ | h | ⟨h, -, -⟩)
  · exact absurd h (by decide)
  · rcases h with h | h
    · exact absurd h.1 (by decide)
    · exact absurd h.1 (by decide)
  · exact h.2 ⟨by decide, by decide, by decide⟩
  · exact hnext h
  · exact absurd h (by decide)
  · exact absurd h (by decide)

end Retrace.Core
