import GameScript.Decimal.Notation
import GameScript.Fields
import GameScript.Text.Quoted

/-! Data in the JSON model, with integers kept apart from other numbers. -/

namespace GameScript

/-- A datum. Objects list their members in order. -/
inductive Json where
  | null
  | bool (value : Bool)
  | int (value : Int)
  | number (value : Float)
  | string (value : String)
  | array (items : List Json)
  | object (members : List (String × Json))
  deriving Repr, Inhabited

namespace Json

/-! ## The display form -/

mutual

/-- A datum as messages show it: words for the constants, texts in quotes, whole numbers without a
point, items and members in brackets. -/
def display : Json → String
  | .null => "None"
  | .bool value => if value then "True" else "False"
  | .int value => Decimal.integerText value
  | .number value => Decimal.Notation.plain.write value
  | .string value => Text.quoted value
  | .array items => "[" ++ String.intercalate ", " (displayItems items) ++ "]"
  | .object members => "\x7b" ++ String.intercalate ", " (displayMembers members) ++ "\x7d"
termination_by structural datum => datum

def displayItems : List Json → List String
  | [] => []
  | item :: rest => display item :: displayItems rest
termination_by structural items => items

def displayMembers : List (String × Json) → List String
  | [] => []
  | (key, value) :: rest => (Text.quoted key ++ ": " ++ display value) :: displayMembers rest
termination_by structural members => members

end

/-- The display form, but with a text at the top left bare. -/
def displayBare : Json → String
  | .string value => value
  | datum => display datum

/-- The word for a datum's sort, as messages name it. -/
def typeName : Json → String
  | .null => "NoneType"
  | .bool _ => "bool"
  | .int _ => "int"
  | .number _ => "float"
  | .string _ => "str"
  | .array _ => "list"
  | .object _ => "dict"

/-! ## Equality of data -/

/-- The number that a datum stands for, the constants counting as one and zero. -/
def numeric? : Json → Option (Int ⊕ Float)
  | .bool value => some (.inl (if value then 1 else 0))
  | .int value => some (.inl value)
  | .number value => some (.inr value)
  | _ => none

/-- An integer and another number are the same if the latter is that integer. What is no number is the
same as itself. -/
def sameNumber : Int ⊕ Float → Int ⊕ Float → Bool
  | .inl a, .inl b => a = b
  | .inr a, .inr b => a == b || (a.isNaN && b.isNaN)
  | .inl a, .inr b => Decimal.integer? b = some a
  | .inr a, .inl b => Decimal.integer? a = some b

mutual

/-- Do two data stand for the same thing? Numbers are compared by value, arrays item by item, and
objects by name whatever the order of their members. -/
def same : Json → Json → Bool
  | .null, other => match other with
    | .null => true
    | _ => false
  | .string a, other => match other with
    | .string b => a = b
    | _ => false
  | .array items, other => match other with
    | .array others => sameItems items others
    | _ => false
  | .object members, other => match other with
    | .object others => members.length = others.length && sameMembers members others
    | _ => false
  | datum, other => match numeric? datum, numeric? other with
    | some a, some b => sameNumber a b
    | _, _ => false
termination_by structural datum => datum

def sameItems : List Json → List Json → Bool
  | [], others => others.isEmpty
  | item :: rest, others => match others with
    | [] => false
    | other :: others => same item other && sameItems rest others
termination_by structural items => items

def sameMembers : List (String × Json) → List (String × Json) → Bool
  | [], _ => true
  | (key, value) :: rest, others => match Fields.get? others key with
    | none => false
    | some other => same value other && sameMembers rest others
termination_by structural members => members

end

end Json

end GameScript
