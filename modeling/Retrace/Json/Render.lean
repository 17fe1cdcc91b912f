import Retrace.Json.Parson

/-!
# Writing JSON objects

The form in which the program writes objects: the members in a row, each a quoted name, a colon and
the text of the value. `Reads` says that the parser gets a value from such a text, `ObjectText` that
a text is an object and nothing else.
-/

namespace Retrace.Parson

open CLib

def quoted (s : Bytes) : Bytes := dquote :: (s ++ [dquote])

def renderMember (m : Bytes × Bytes) : Bytes := quoted m.1 ++ colon :: m.2

def renderMembers : List (Bytes × Bytes) → Bytes
  | [] => []
  | [m] => renderMember m
  | m :: ms => renderMember m ++ comma :: renderMembers ms

def renderObject (ms : List (Bytes × Bytes)) : Bytes := lbrace :: (renderMembers ms ++ [rbrace])

def Reads (value : Bytes → Option (JsonValue × Bytes)) (raw : Bytes) (v : JsonValue) : Prop :=
  ∀ c t, c = comma ∨ c = rbrace → ∃ r, value (raw ++ c :: t) = some (v, r) ∧
    skip_whitespaces r = c :: t

def MembersRead (value : Bytes → Option (JsonValue × Bytes)) (ms : List (Bytes × Bytes))
    (vs : JsonObject) : Prop :=
  List.Forall₂ (fun m v => m.1 = v.1 ∧ Plain m.1 ∧ Reads value m.2 v.2) ms vs

def ObjectText (s : Bytes) : Prop :=
  ∃ o r, parse_value (MAX_NESTING + 1) s = some (.object o, r) ∧ skip_whitespaces r = []

instance (s : Bytes) : Decidable (ObjectText s) :=
  match h : parse_value (MAX_NESTING + 1) s with
  | some (.object o, r) =>
    decidable_of_iff (skip_whitespaces r = []) (by simp [ObjectText, h])
  | none => isFalse (by simp [ObjectText, h])
  | some (.null, _) | some (.string _, _) | some (.number _, _) | some (.boolean _, _) | some (.array _, _) =>
    isFalse (by simp [ObjectText, h])

/-- The texts the program writes for the scalar members of its records: strings that need no escape
and decimal numbers. -/
inductive ScalarText : Bytes → Prop where
  | string {s : Bytes} (hs : Plain s) : ScalarText (quoted s)
  | int {n : Int} (hn : n.natAbs < 2 ^ 64) : ScalarText (fmtInt n)
  | nat {n : Nat} (hn : n < 2 ^ 64) : ScalarText (fmtNat n)

end Retrace.Parson
