import GameScript.Json.Basic

/-! # Equality of data can be decided

Data are compared piece by piece, the members of objects in order. -/

namespace GameScript.Json

mutual

/-- Are two data the same in every piece? -/
def equal : Json → Json → Bool
  | .null, .null => true
  | .bool a, .bool b => a = b
  | .int a, .int b => a = b
  | .number a, .number b => a = b
  | .string a, .string b => a = b
  | .array items, .array others => equalItems items others
  | .object members, .object others => equalMembers members others
  | _, _ => false
termination_by structural datum => datum

def equalItems : List Json → List Json → Bool
  | [], [] => true
  | item :: rest, other :: others => equal item other && equalItems rest others
  | _, _ => false
termination_by structural items => items

def equalMembers : List (String × Json) → List (String × Json) → Bool
  | [], [] => true
  | (key, value) :: rest, (key', value') :: others =>
    key = key' && equal value value' && equalMembers rest others
  | _, _ => false
termination_by structural members => members

end

mutual

theorem equal_iff : ∀ a b : Json, equal a b = true ↔ a = b
  | .null, b | .bool _, b | .int _, b | .number _, b | .string _, b => by
    cases b <;> simp [equal]
  | .array items, b => by
    cases b with
    | array others => simp [equal, equalItems_iff items others]
    | _ => simp [equal]
  | .object members, b => by
    cases b with
    | object others => simp [equal, equalMembers_iff members others]
    | _ => simp [equal]

theorem equalItems_iff : ∀ items others : List Json, equalItems items others = true ↔ items = others
  | [], others => by cases others <;> simp [equalItems]
  | item :: rest, others => by
    cases others with
    | nil => simp [equalItems]
    | cons other others => simp [equalItems, equal_iff item other, equalItems_iff rest others]

theorem equalMembers_iff :
    ∀ members others : List (String × Json), equalMembers members others = true ↔ members = others
  | [], others => by cases others <;> simp [equalMembers]
  | (key, value) :: rest, others => by
    cases others with
    | nil => simp [equalMembers]
    | cons other others =>
      obtain ⟨key', value'⟩ := other
      simp [equalMembers, equal_iff value value', equalMembers_iff rest others, and_assoc]

end

instance : DecidableEq Json := fun a b => decidable_of_iff _ (equal_iff a b)

end GameScript.Json
