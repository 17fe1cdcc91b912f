import Retrace.CLib.Strtod

/-!
# The JSON parser

`parson.c`: the parser behind `json_parse_string` and the accessors the rest of the program uses.
A `const char **` the parser advances becomes the rest of the text, returned beside the value; `none`
is the `NULL` of a failed parse. Allocation succeeds.

The nesting level the source counts up to `MAX_NESTING` is counted down here: `parse_value depth` is
the call at nesting level `MAX_NESTING + 1 - depth`.
-/

namespace Retrace.Parson

open CLib

inductive JsonValue where
  | null
  | boolean (b : Bool)
  | number (d : ℚ)
  | string (s : Bytes)
  | array (items : List JsonValue)
  | object (members : List (Bytes × JsonValue))

/-- `JSON_Object`: the members in the order they were added. -/
abbrev JsonObject := List (Bytes × JsonValue)

def MAX_NESTING : Nat := 2048

def skip_whitespaces (s : Bytes) : Bytes := s.dropWhile isspace

/-- `skip_quotes` behind the opening quotation mark: the text up to the closing one and what follows
it. A backslash takes the next character with it. -/
def skip_quotes : Bytes → Option (Bytes × Bytes)
  | [] => none
  | c :: s =>
    if c = dquote then some ([], s)
    else if c = backslash then
      match s with
      | [] => none
      | d :: s' => (skip_quotes s').map fun (a, r) => (c :: d :: a, r)
    else (skip_quotes s).map fun (a, r) => (c :: a, r)

def parse_utf16_hex : Bytes → Option Nat
  | a :: b :: c :: d :: _ =>
    if isxdigit a && isxdigit b && isxdigit c && isxdigit d then
      some (digitsVal 16 [a, b, c, d])
    else none
  | _ => none

/-- `parse_utf16` behind the letter `u`: the bytes of the character and what follows the escape. -/
def parse_utf16 (s : Bytes) : Option (Bytes × Bytes) := do
  let cp ← parse_utf16_hex s
  let rest := s.drop 4
  if cp < 0x80 then some ([cp.toUInt8], rest)
  else if cp < 0x800 then
    some ([(cp / 64 % 32 + 0xC0).toUInt8, (cp % 64 + 0x80).toUInt8], rest)
  else if cp < 0xD800 ∨ 0xDFFF < cp then
    some ([(cp / 4096 % 16 + 0xE0).toUInt8, (cp / 64 % 64 + 0x80).toUInt8,
      (cp % 64 + 0x80).toUInt8], rest)
  else if cp ≤ 0xDBFF then
    match rest with
    | x :: y :: rest' =>
      if x = backslash ∧ y = 117 then
        let trail ← parse_utf16_hex rest'
        if trail < 0xDC00 ∨ 0xDFFF < trail then none
        else
          let full := (cp - 0xD800) * 1024 + (trail - 0xDC00) + 0x10000
          some ([(full / 262144 % 8 + 0xF0).toUInt8, (full / 4096 % 64 + 0x80).toUInt8,
            (full / 64 % 64 + 0x80).toUInt8, (full % 64 + 0x80).toUInt8], rest'.drop 4)
      else none
    | _ => none
  else none

def escaped (c : UInt8) : Option UInt8 :=
  if c = dquote then some dquote
  else if c = backslash then some backslash
  else if c = 47 then some 47
  else if c = 98 then some 8
  else if c = 102 then some 12
  else if c = 110 then some 10
  else if c = 114 then some 13
  else if c = 116 then some 9
  else none

def process_loop : Nat → Bytes → Option Bytes
  | _, [] => some []
  | 0, _ :: _ => none
  | fuel + 1, c :: s =>
    if c = backslash then
      match s with
      | [] => none
      | d :: s' =>
        if d = 117 then do
          let (u, rest) ← parse_utf16 s'
          let out ← process_loop fuel rest
          some (u ++ out)
        else do
          let e ← escaped d
          let out ← process_loop fuel s'
          some (e :: out)
    else if c < 32 then none
    else (process_loop fuel s).map (c :: ·)

/-- `process_string`. The result is a C string, so an escaped NUL ends it. -/
def process_string (s : Bytes) : Option Bytes := (process_loop s.length s).map cstr

def get_quoted_string : Bytes → Option (Bytes × Bytes)
  | [] => none
  | c :: s =>
    if c = dquote then do
      let (text, rest) ← skip_quotes s
      let str ← process_string text
      some (str, rest)
    else none

def is_decimal (s : Bytes) (length : Nat) : Bool :=
  !(1 < length && s.head? == some 48 && s[1]? != some 46) &&
  !(2 < length && s.head? == some 45 && s[1]? == some 48 && s[2]? != some 46) &&
  (s.take length).all fun c => c != 120 && c != 88

/-- `parse_number_value`. Infinities and not-a-numbers are refused by `json_value_init_number`. -/
def parse_number_value (s : Bytes) : Option (JsonValue × Bytes) :=
  let r := strtod s
  if r.erange || !is_decimal s r.consumed then none
  else r.value.map fun d => (.number d, s.drop r.consumed)

def parse_boolean_value (s : Bytes) : Option (JsonValue × Bytes) :=
  if (bytes "true").isPrefixOf s then some (.boolean true, s.drop 4)
  else if (bytes "false").isPrefixOf s then some (.boolean false, s.drop 5)
  else none

def parse_null_value (s : Bytes) : Option (JsonValue × Bytes) :=
  if (bytes "null").isPrefixOf s then some (.null, s.drop 4) else none

/-- The loop of `parse_object_value`, with the members read so far; `value` parses a member's value.
A name that is there already fails the parse (`json_object_add`). -/
def parse_members (value : Bytes → Option (JsonValue × Bytes)) :
    Nat → Bytes → JsonObject → Option (JsonObject × Bytes)
  | 0, _, _ => none
  | fuel + 1, s, acc => do
    let (name, s1) ← get_quoted_string s
    match skip_whitespaces s1 with
    | [] => none
    | c :: s2 =>
      if c = colon then do
        let (v, s3) ← value s2
        if (acc.lookup name).isSome then none
        else
          match skip_whitespaces s3 with
          | [] => none
          | d :: s4 =>
            if d = comma then parse_members value fuel (skip_whitespaces s4) (acc ++ [(name, v)])
            else if d = rbrace then some (acc ++ [(name, v)], s4)
            else none
      else none

def parse_object_value (value : Bytes → Option (JsonValue × Bytes)) (s : Bytes) :
    Option (JsonValue × Bytes) :=
  match skip_whitespaces s with
  | [] => none
  | c :: t =>
    if c = rbrace then some (.object [], t)
    else (parse_members value (c :: t).length (c :: t) []).map fun (o, r) => (.object o, r)

def parse_items (value : Bytes → Option (JsonValue × Bytes)) :
    Nat → Bytes → List JsonValue → Option (List JsonValue × Bytes)
  | 0, _, _ => none
  | fuel + 1, s, acc => do
    let (v, s1) ← value s
    match skip_whitespaces s1 with
    | [] => none
    | d :: s2 =>
      if d = comma then parse_items value fuel (skip_whitespaces s2) (acc ++ [v])
      else if d = rbracket then some (acc ++ [v], s2)
      else none

def parse_array_value (value : Bytes → Option (JsonValue × Bytes)) (s : Bytes) :
    Option (JsonValue × Bytes) :=
  match skip_whitespaces s with
  | [] => none
  | c :: t =>
    if c = rbracket then some (.array [], t)
    else (parse_items value (c :: t).length (c :: t) []).map fun (a, r) => (.array a, r)

def parse_value : Nat → Bytes → Option (JsonValue × Bytes)
  | 0, _ => none
  | depth + 1, s =>
    match skip_whitespaces s with
    | [] => none
    | c :: t =>
      if c = lbrace then parse_object_value (parse_value depth) t
      else if c = lbracket then parse_array_value (parse_value depth) t
      else if c = dquote then (get_quoted_string (c :: t)).map fun (x, r) => (.string x, r)
      else if c = 102 ∨ c = 116 then parse_boolean_value (c :: t)
      else if c = 45 ∨ isdigit c then parse_number_value (c :: t)
      else if c = 110 then parse_null_value (c :: t)
      else none

def dropBom : Bytes → Bytes
  | a :: b :: c :: s => if a = 0xEF ∧ b = 0xBB ∧ c = 0xBF then s else a :: b :: c :: s
  | s => s

/-- `json_parse_string`. What follows the value is not looked at. -/
def json_parse_string (s : Bytes) : Option JsonValue :=
  (parse_value (MAX_NESTING + 1) (dropBom s)).map Prod.fst

def json_value_get_object : JsonValue → Option JsonObject
  | .object o => some o
  | _ => none

/-- `json_object_get_value`; a `NULL` object has no members. -/
def json_object_get_value (o : Option JsonObject) (name : Bytes) : Option JsonValue :=
  o.bind (·.lookup name)

def json_object_get_string (o : Option JsonObject) (name : Bytes) : Option Bytes :=
  match json_object_get_value o name with
  | some (.string s) => some s
  | _ => none

/-- `json_object_get_number`: 0 when there is no such number. -/
def json_object_get_number (o : Option JsonObject) (name : Bytes) : ℚ :=
  match json_object_get_value o name with
  | some (.number d) => d
  | _ => 0

def json_object_get_object (o : Option JsonObject) (name : Bytes) : Option JsonObject :=
  (json_object_get_value o name).bind json_value_get_object

def json_object_get_array (o : Option JsonObject) (name : Bytes) : Option (List JsonValue) :=
  match json_object_get_value o name with
  | some (.array a) => some a
  | _ => none

def remove_comments (start_token end_token : Bytes) : Nat → (in_string escaped : Bool) → Bytes → Bytes
  | 0, _, _, s => s
  | _ + 1, _, _, [] => []
  | fuel + 1, in_string, escaped, c :: s =>
    if c = backslash ∧ escaped = false then
      c :: remove_comments start_token end_token fuel in_string true s
    else if c = dquote ∧ escaped = false then
      c :: remove_comments start_token end_token fuel (!in_string) false s
    else if in_string = false ∧ start_token.isPrefixOf (c :: s) then
      let blank := List.replicate start_token.length 32
      let rest := (c :: s).drop start_token.length
      match strstr rest end_token with
      | none => blank ++ rest
      | some p =>
        let cut := rest.length - p.length + end_token.length
        blank ++ List.replicate cut 32 ++
          remove_comments start_token end_token fuel in_string false (rest.drop cut)
    else c :: remove_comments start_token end_token fuel in_string false s

def json_parse_string_with_comments (s : Bytes) : Option JsonValue :=
  let s := remove_comments (bytes "/*") (bytes "*/") s.length false false s
  let s := remove_comments (bytes "//") [newline] s.length false false s
  (parse_value (MAX_NESTING + 1) s).map Prod.fst

end Retrace.Parson
