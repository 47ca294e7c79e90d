import GameScript.Decimal.Binary
import GameScript.Machine.Basic

/-! Operators, indexing and native functions: all that needs no further evaluation. -/

namespace GameScript.Eval

/-! ## Operators -/

/-- A sign applied to a value. -/
def applyUnary (operator : Token) (operand : Value) : Eval Value :=
  match operator.kind with
  | .bang => pure (.bool !operand.truthy)
  | .minus =>
    match operand with
    | .number x => pure (.number (-x))
    | _ => fault (.operandNotNumber operand.tag) operator
  | _ => broken (.unknownUnary operator.text)

/-- The sum of two numbers, or a text with the other operand's text after it. -/
def add (room : Nat) (operator : Token) (a b : Value) : Eval Value :=
  match a, b with
  | .number x, .number y => pure (.number (x + y))
  | .string s, .string t => pure (.string (s ++ t))
  | .string s, b => return .string (s ++ (← textOf (room - 3) b))
  | a, .string t => return .string (t ++ (← textOf (room - 3) a))
  | a, b => fault (.notAddable a.tag b.tag) operator

/-- Are two values equal, if there is room to compare them? -/
def areEqual (room : Nat) (a b : Value) : Eval Bool := do
  match (← get).store.equal? (room - 1) a b with
  | some result => pure result
  | none => overflow

/-- The result of a division, which is undefined by zero. -/
def divide (operation : Float → Float → Float) (x y : Float) : Eval Value :=
  if y == 0 then broken .zeroDivisor else pure (.number (operation x y))

/-- An operator on two numbers. Divisors are checked first. -/
def arithmetic (operator : Token) (x y : Float) : Eval Value :=
  match operator.kind with
  | .minus => pure (.number (x - y))
  | .star => pure (.number (x * y))
  | .slash => if y == 0 then fault .divisionByZero operator else divide (· / ·) x y
  | .percent => if y == 0 then fault .moduloByZero operator else divide Decimal.modulo x y
  | .greater => pure (.bool (y < x))
  | .greaterEqual => pure (.bool (y ≤ x))
  | .less => pure (.bool (x < y))
  | .lessEqual => pure (.bool (x ≤ y))
  | _ => broken (.unknownBinary operator.text)

/-- An operator between two values. All values can be compared for equality; only numbers can be
computed with. -/
def applyBinary (room : Nat) (operator : Token) (a b : Value) : Eval Value :=
  match operator.kind with
  | .equalEqual => return .bool (← areEqual room a b)
  | .bangEqual => return .bool !(← areEqual room a b)
  | .plus => add room operator a b
  | _ =>
    match a, b with
    | .number x, .number y => arithmetic operator x y
    | a, b => fault (.operandsNotNumbers operator.text a.tag b.tag) operator

/-! ## Indexing -/

/-- The position that an index stands for in something of a length. -/
def position (room : Nat) (index : Value) (length : Nat) (bracket : Token) : Eval Int := do
  let whole? := match index with
    | .number x => Decimal.integer? x
    | _ => none
  match whole? with
  | none => fault (.indexNotInteger (← textOf (room - 2) index)) bracket
  | some n =>
    if 0 ≤ n && n < length then pure n else fault (.indexOutOfBounds n length) bracket

/-- The item at a position. There is none before the first and after the last. -/
def itemAt {α : Type} (items : Nat → Option α) : Int → Eval α
  | .ofNat i =>
    match items i with
    | some item => pure item
    | none => broken .outOfRange
  | .negSucc _ => broken .outOfRange

/-- The element of an array or the character of a string. -/
def elementAt (room : Nat) (container index : Value) (bracket : Token) : Eval Value :=
  match container with
  | .array place => do
    let elements := (← get).store.elements place
    let i ← position room index elements.size bracket
    itemAt (elements[·]?) i
  | .string s => do
    let i ← position room index s.length bracket
    return .string (String.ofList [← itemAt (s.toList[·]?) i])
  | _ => fault (.notIndexable container.tag) bracket

/-- Where a value was read from, so that it can be replaced there. -/
inductive Place where
  /-- Nowhere: the value was computed. -/
  | nowhere
  /-- A name, seen from a scope. -/
  | variable (scope : Nat) (name : Token)
  /-- An element of a container, which was itself read from a place. -/
  | element (container index : Value) (bracket : Token) (outer : Place)

/-- A text with one character replaced. -/
def replaceAt (s : String) (i : Nat) (t : String) : String :=
  String.ofList (s.toList.take i ++ t.toList ++ s.toList.drop (i + 1))

/-- Replaces an element of a container. An array is changed itself; a string is a value, so a new one
is made, and `replace` puts it where the old one came from. -/
def writeElement (room : Nat) (container index value : Value) (bracket : Token)
    (replace : Option (Value → Eval Unit)) : Eval Unit :=
  match container with
  | .array array => do
    let elements := (← get).store.elements array
    let i ← position room index elements.size bracket
    discard <| itemAt (elements[·]?) i
    modifyStore (·.setElement array i.toNat value)
  | .string s => do
    let i ← position room index s.length bracket
    match value, replace with
    | .string t, some replace => replace (.string (replaceAt s i.toNat t))
    | .string _, none => fault .noPlace bracket
    | value, _ => fault (.storedNotString value.tag) bracket
  | container => fault (.notIndexable container.tag) bracket

/-- How to replace the value of a place, if it can be. Every element on the way outward takes two
steps. -/
def Place.replacer (room : Nat) : Place → Option (Value → Eval Unit)
  | .nowhere => none
  | .variable scope name => some (rebind (room - 1) scope name)
  | .element container index bracket outer =>
    some fun value =>
      if room < 2 then overflow
      else writeElement (room - 1) container index value bracket (outer.replacer (room - 2))

/-- Replaces an element of a container that was read from a place. -/
def storeElement (room : Nat) (container index value : Value) (bracket : Token) (place : Place) :
    Eval Unit :=
  writeElement room container index value bracket (place.replacer (room - 1))

/-! ## Native functions -/

/-- Calls a native function. The number of arguments has been checked. -/
def callNative (room : Nat) (native : Native) (arguments : List Value) : Eval Value :=
  match native, arguments with
  | .clock, _ => return .number (← get).clock
  | .input, _ => return ((← readLine).map Value.string).getD .nil
  | .len, [value] =>
    match value with
    | .string s => pure (.number (Float.ofNat s.length))
    | .array place => return .number (Float.ofNat ((← get).store.elements place).size)
    | value => nativeFault (.lenArgument value.tag)
  | .concat, [a, b] => return .string ((← textOf room a) ++ (← textOf room b))
  | .push, [target, value] =>
    match target with
    | .array place => do
      modifyStore (·.pushElement place value)
      pure target
    | target => nativeFault (.pushArgument target.tag)
  | _, _ => pure .nil

/-- Runs the body of a call. An error without a token gets the call's, and running out of room ends
as an error of this call. -/
def atCall (paren : Token) (body : Eval Value) : Eval Value := fun machine =>
  match body machine with
  | .ok value machine => .ok value machine
  | .error (.fault cause none) machine => .error (.fault cause (some paren)) machine
  | .error .overflow machine => .error (.fault .callsTooDeep (some paren)) machine
  | .error stop machine => .error stop machine

end GameScript.Eval
