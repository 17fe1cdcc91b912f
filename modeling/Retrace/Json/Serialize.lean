import Retrace.Json.Parson

/-!
# Writing and building JSON values

`parson.c`: the serialiser behind `json_serialize_to_string`, also with indentation (`is_pretty`), and the
functions that change an object. The serialiser looks every value of an object up by its name; no object has a
name twice, so this is the value that stands beside the name. Of the strings that are put into a value from outside
only well-formed UTF-8 is accepted; another one is left out, and the callers do not look at the failure.
-/

namespace Retrace.Parson

open CLib

def escape_char (c : UInt8) : Bytes :=
  if c = dquote then [backslash, dquote]
  else if c = backslash then [backslash, backslash]
  else if c = 47 then [backslash, 47]
  else if c = 8 then [backslash, 98]
  else if c = 12 then [backslash, 102]
  else if c = 10 then [backslash, 110]
  else if c = 13 then [backslash, 114]
  else if c = 9 then [backslash, 116]
  else if c < 32 then backslash :: 117 :: hexFixed 4 c.toNat
  else [c]

def json_serialize_string (s : Bytes) : Bytes := dquote :: (s.flatMap escape_char ++ [dquote])

mutual

def json_serialize_to_buffer_r : JsonValue → Bytes
  | .null => bytes "null"
  | .boolean b => if b then bytes "true" else bytes "false"
  | .number d => fmtG17 d
  | .string s => json_serialize_string s
  | .array items => lbracket :: (serialize_items items ++ [rbracket])
  | .object members => lbrace :: (serialize_members members ++ [rbrace])

def serialize_items : List JsonValue → Bytes
  | [] => []
  | v :: vs =>
    json_serialize_to_buffer_r v ++ (if vs.isEmpty then [] else comma :: serialize_items vs)

def serialize_members : List (Bytes × JsonValue) → Bytes
  | [] => []
  | (name, v) :: ms =>
    json_serialize_string name ++ colon :: (json_serialize_to_buffer_r v ++
      (if ms.isEmpty then [] else comma :: serialize_members ms))

end

def json_serialize_to_string (v : JsonValue) : Bytes := json_serialize_to_buffer_r v

/-- `json_object_set_value`: the value of the member with this name, or a new member at the end. -/
def json_object_set_value (o : JsonObject) (name : Bytes) (v : JsonValue) : JsonObject :=
  match o with
  | [] => [(name, v)]
  | (n, w) :: o => if n = name then (n, v) :: o else (n, w) :: json_object_set_value o name v

def json_object_set_number (o : JsonObject) (name : Bytes) (d : ℚ) : JsonObject :=
  json_object_set_value o name (.number d)

mutual

def allNumbers (p : ℚ → Bool) : JsonValue → Bool
  | .number d => p d
  | .array items => allNumbersItems p items
  | .object members => allNumbersMembers p members
  | _ => true

def allNumbersItems (p : ℚ → Bool) : List JsonValue → Bool
  | [] => true
  | v :: vs => allNumbers p v && allNumbersItems p vs

def allNumbersMembers (p : ℚ → Bool) : List (Bytes × JsonValue) → Bool
  | [] => true
  | (_, v) :: ms => allNumbers p v && allNumbersMembers p ms

end

def notSubnormal (d : ℚ) : Bool := d = 0 ∨ 2 ^ (-1022 : ℤ) ≤ |d|

def append_indent (level : Nat) : Bytes := List.replicate (4 * level) 32

mutual

def serialize_pretty (level : Nat) : JsonValue → Bytes
  | .null => bytes "null"
  | .boolean b => if b then bytes "true" else bytes "false"
  | .number d => fmtG17 d
  | .string s => json_serialize_string s
  | .array items =>
    lbracket :: ((if items.isEmpty then [] else newline :: (pretty_items level items ++ append_indent level)) ++
      [rbracket])
  | .object members =>
    lbrace :: ((if members.isEmpty then []
      else newline :: (pretty_members level members ++ append_indent level)) ++
      [rbrace])

def pretty_items (level : Nat) : List JsonValue → Bytes
  | [] => []
  | v :: vs =>
    append_indent (level + 1) ++ (serialize_pretty (level + 1) v ++
      (if vs.isEmpty then [newline] else comma :: newline :: pretty_items level vs))

def pretty_members (level : Nat) : List (Bytes × JsonValue) → Bytes
  | [] => []
  | (name, v) :: ms =>
    append_indent (level + 1) ++ (json_serialize_string name ++ colon :: 32 :: (serialize_pretty (level + 1) v ++
      (if ms.isEmpty then [newline] else comma :: newline :: pretty_members level ms)))

end

def json_serialize_to_string_pretty (v : JsonValue) : Bytes := serialize_pretty 0 v

def is_cont (c : UInt8) : Bool := 0x80 ≤ c && c ≤ 0xBF

def num_bytes_in_utf8_sequence (c : UInt8) : Nat :=
  if c = 0xC0 ∨ c = 0xC1 ∨ 0xF4 < c ∨ is_cont c then 0
  else if c < 0x80 then 1
  else if c < 0xE0 then 2
  else if c < 0xF0 then 3
  else 4

/-- `verify_utf8_sequence`: the length of the sequence that a string starts with. -/
def verify_utf8_sequence (s : Bytes) : Option Nat :=
  let byte i := s.getD i 0
  let low i := (byte i).toNat % 64
  let len := num_bytes_in_utf8_sequence (byte 0)
  let cp? : Option Nat :=
    if len = 1 then some (byte 0).toNat
    else if len = 2 ∧ is_cont (byte 1) then some ((byte 0).toNat % 32 * 64 + low 1)
    else if len = 3 ∧ is_cont (byte 1) ∧ is_cont (byte 2) then
      some (((byte 0).toNat % 16 * 64 + low 1) * 64 + low 2)
    else if len = 4 ∧ is_cont (byte 1) ∧ is_cont (byte 2) ∧ is_cont (byte 3) then
      some ((((byte 0).toNat % 8 * 64 + low 1) * 64 + low 2) * 64 + low 3)
    else none
  match cp? with
  | none => none
  | some cp =>
    if (cp < 0x80 ∧ 1 < len) ∨ (cp < 0x800 ∧ 2 < len) ∨ (cp < 0x10000 ∧ 3 < len) then none
    else if 0x10FFFF < cp then none
    else if 0xD800 ≤ cp ∧ cp ≤ 0xDFFF then none
    else some len

def utf8_loop : Nat → Bytes → Bool
  | _, [] => true
  | 0, _ :: _ => false
  | fuel + 1, c :: s =>
    match verify_utf8_sequence (c :: s) with
    | none => false
    | some len => utf8_loop fuel ((c :: s).drop len)

def is_valid_utf8 (s : Bytes) : Bool := utf8_loop s.length s

def json_value_init_string (s : Bytes) : Option JsonValue :=
  if is_valid_utf8 (cstr s) then some (.string (cstr s)) else none

def json_object_set_string (o : JsonObject) (name s : Bytes) : JsonObject :=
  match json_value_init_string s with
  | none => o
  | some v => json_object_set_value o name v

def json_array_append_string (a : List JsonValue) (s : Bytes) : List JsonValue :=
  a ++ (json_value_init_string s).toList

def json_array_get_string (a : List JsonValue) (i : Nat) : Option Bytes :=
  match a[i]? with
  | some (.string s) => some s
  | _ => none

end Retrace.Parson
