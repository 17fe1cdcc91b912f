import Retrace.Json.Proofs.SerializeProofs

/-!
# An indented value is parsed again

The parser skips the blanks and newlines in front of a value, a name, a comma and a bracket, so it reads the
indented text as it reads the short one. A number that is subnormal makes it refuse the whole text.
-/

namespace Retrace.Parson

open CLib List

theorem blank_indent (level : Nat) : Blanks (append_indent level) := fun c hc => by
  rw [eq_of_mem_replicate hc]
  rfl

theorem blank_newline {w : Bytes} (hw : Blanks w) : Blanks (newline :: w) := fun c hc => by
  rcases mem_cons.mp hc with rfl | hc
  · rfl
  · exact hw c hc

theorem numberEnds_newline (t : Bytes) : NumberEnds (newline :: t) := numberEnds_cons rfl t

-- The newline in front of the first item is the one that follows the opening bracket.
theorem pretty_items_eq (level : Nat) (v : JsonValue) (vs : List JsonValue) :
    newline :: pretty_items level (v :: vs) =
      joined (newline :: append_indent (level + 1)) (serialize_pretty (level + 1)) (v :: vs) ++ [newline] := by
  induction vs generalizing v with
  | nil => simp [pretty_items, joined]
  | cons w vs ih =>
    rw [pretty_items, joined, isEmpty_cons, if_neg Bool.false_ne_true, if_neg Bool.false_ne_true, ih w]
    simp

theorem pretty_members_eq (level : Nat) (m : Bytes × JsonValue) (ms : JsonObject) :
    newline :: pretty_members level (m :: ms) =
      joined (newline :: append_indent (level + 1)) (memberText [32] (serialize_pretty (level + 1))) (m :: ms) ++
        [newline] := by
  induction ms generalizing m with
  | nil => simp [pretty_members, joined, memberText]
  | cons m' ms ih =>
    obtain ⟨name, v⟩ := m
    rw [pretty_members, joined, isEmpty_cons, if_neg Bool.false_ne_true, if_neg Bool.false_ne_true,
      ih m', memberText]
    simp

theorem spelling_pretty : Spelling serialize_pretty where
  scalar level v harray hobject := by
    cases v with
    | array vs => exact absurd rfl (harray vs)
    | object ms => exact absurd rfl (hobject ms)
    | _ => simp only [serialize_pretty, json_serialize_to_buffer_r]
  array level vs := by
    cases vs with
    | nil => exact ⟨[], [], blank_nil, blank_nil, by simp [serialize_pretty, joined]⟩
    | cons v vs =>
      refine ⟨_, _, blank_newline (blank_indent (level + 1)), blank_newline (blank_indent level), ?_⟩
      have hitems := congrArg (· ++ append_indent level) (pretty_items_eq level v vs)
      simp only [cons_append] at hitems
      rw [serialize_pretty, isEmpty_cons, if_neg Bool.false_ne_true, hitems]
      simp
  object level ms := by
    cases ms with
    | nil => exact ⟨[], [], [], blank_nil, blank_nil, blank_nil, by simp [serialize_pretty, joined]⟩
    | cons m ms =>
      refine ⟨_, [32], _, blank_newline (blank_indent (level + 1)), by simp [Blanks, isspace],
        blank_newline (blank_indent level), ?_⟩
      have hmembers := congrArg (· ++ append_indent level) (pretty_members_eq level m ms)
      simp only [cons_append] at hmembers
      rw [serialize_pretty, isEmpty_cons, if_neg Bool.false_ne_true, hmembers]
      simp

theorem json_parse_pretty (h : WellFormed IsDouble (MAX_NESTING + 1) v)
    (ht : NumberEnds t) : json_parse_string (json_serialize_to_string_pretty v ++ t) =
      if allNumbers notSubnormal v then some v else none :=
  json_parse_spelled spelling_pretty h 0 ht

theorem json_parse_pretty_normal (h : WellFormed IsNormal (MAX_NESTING + 1) v)
    (ht : NumberEnds t) : json_parse_string (json_serialize_to_string_pretty v ++ t) = some v := by
  rw [json_parse_pretty h.double.1 ht, if_pos h.double.2]

end Retrace.Parson
