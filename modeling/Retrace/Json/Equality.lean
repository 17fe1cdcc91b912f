import Retrace.Json.Parson

/-!
# Equality of JSON values

Values can be compared, so that what is parsed from a concrete text can be computed.
-/

namespace Retrace.Parson

open CLib

mutual

def JsonValue.beq : JsonValue → JsonValue → Bool
  | .null, .null => true
  | .boolean a, .boolean b => a == b
  | .number a, .number b => a == b
  | .string a, .string b => a == b
  | .array a, .array b => itemsBeq a b
  | .object a, .object b => membersBeq a b
  | _, _ => false

def itemsBeq : List JsonValue → List JsonValue → Bool
  | [], [] => true
  | v :: vs, w :: ws => v.beq w && itemsBeq vs ws
  | _, _ => false

def membersBeq : List (Bytes × JsonValue) → List (Bytes × JsonValue) → Bool
  | [], [] => true
  | (m, v) :: ms, (n, w) :: ns => m == n && v.beq w && membersBeq ms ns
  | _, _ => false

end

mutual

theorem JsonValue.beq_iff : ∀ a b : JsonValue, a.beq b = true ↔ a = b
  | .null, b => by cases b <;> simp [JsonValue.beq]
  | .boolean _, b => by cases b <;> simp [JsonValue.beq]
  | .number _, b => by cases b <;> simp [JsonValue.beq]
  | .string _, b => by cases b <;> simp [JsonValue.beq]
  | .array vs, b => by
    cases b with
    | array ws => simp [JsonValue.beq, itemsBeq_iff vs ws]
    | _ => simp [JsonValue.beq]
  | .object ms, b => by
    cases b with
    | object ns => simp [JsonValue.beq, membersBeq_iff ms ns]
    | _ => simp [JsonValue.beq]

theorem itemsBeq_iff : ∀ vs ws : List JsonValue, itemsBeq vs ws = true ↔ vs = ws
  | [], ws => by cases ws <;> simp [itemsBeq]
  | v :: vs, ws => by
    cases ws with
    | nil => simp [itemsBeq]
    | cons w ws => simp [itemsBeq, JsonValue.beq_iff v w, itemsBeq_iff vs ws]

theorem membersBeq_iff : ∀ ms ns : List (Bytes × JsonValue), membersBeq ms ns = true ↔ ms = ns
  | [], ns => by cases ns <;> simp [membersBeq]
  | (m, v) :: ms, ns => by
    cases ns with
    | nil => simp [membersBeq]
    | cons n ns =>
      obtain ⟨n, w⟩ := n
      simp [membersBeq, JsonValue.beq_iff v w, membersBeq_iff ms ns]

end

instance : DecidableEq JsonValue := fun a b => decidable_of_iff _ (JsonValue.beq_iff a b)

end Retrace.Parson
