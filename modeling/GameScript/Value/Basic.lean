import GameScript.Json.Basic

/-! Values of running programs. -/

namespace GameScript

/-- The functions that every program starts with. -/
inductive Native where
  | clock | input | len | concat | push
  deriving Repr, DecidableEq

namespace Native

def name : Native → String
  | .clock => "clock"
  | .input => "input"
  | .len => "len"
  | .concat => "concat"
  | .push => "push"

/-- How many arguments it takes. -/
def arity : Native → Nat
  | .clock | .input => 0
  | .len => 1
  | .concat | .push => 2

/-- All native functions, in the order in which they are defined. -/
def all : List Native := [.clock, .input, .len, .concat, .push]

end Native

/-- What sort of thing a value is, as error messages name it. The last three are constants that only
a tree from a file can hold. -/
inductive Tag where
  | nil | boolean | number | string | array | function | dataArray | dataObject | dataInteger
  deriving Repr, DecidableEq

def Tag.text : Tag → String
  | .nil => "nil"
  | .boolean => "boolean"
  | .number => "number"
  | .string => "string"
  | .array => "array"
  | .function => "function"
  | .dataArray => "list"
  | .dataObject => "dict"
  | .dataInteger => "int"

/-- A value. Arrays and functions are known by their place in the store. -/
inductive Value where
  | nil
  | bool (value : Bool)
  | number (value : Float)
  | string (value : String)
  | array (place : Nat)
  | function (place : Nat)
  | native (which : Native)
  /-- A constant of a tree that no program text can write. -/
  | datum (value : Json)
  deriving Repr, Inhabited

namespace Value

/-- The value of a constant. -/
def ofJson : Json → Value
  | .null => .nil
  | .bool value => .bool value
  | .number value => .number value
  | .string value => .string value
  | value => .datum value

def tag : Value → Tag
  | .nil => .nil
  | .bool _ => .boolean
  | .number _ => .number
  | .string _ => .string
  | .array _ => .array
  | .function _ | .native _ => .function
  | .datum (.array _) => .dataArray
  | .datum (.object _) => .dataObject
  | .datum _ => .dataInteger

/-- Only `false` and `nil` count as false. -/
def truthy : Value → Bool
  | .nil => false
  | .bool value => value
  | _ => true

def isNumber : Value → Bool
  | .number _ => true
  | _ => false

end Value

end GameScript
