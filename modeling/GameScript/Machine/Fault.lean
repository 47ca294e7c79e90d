import GameScript.Diagnostic
import GameScript.Value.Basic

/-! Errors of running programs: their causes, names and messages. -/

namespace GameScript

/-- Why a program stops. -/
inductive Fault where
  | operandNotNumber (tag : Tag)
  | operandsNotNumbers (operator : String) (left right : Tag)
  | notAddable (left right : Tag)
  | indexNotInteger (shown : String)
  | notIndexable (tag : Tag)
  | storedNotString (tag : Tag)
  | noPlace
  | lenArgument (tag : Tag)
  | pushArgument (tag : Tag)
  | divisionByZero
  | moduloByZero
  | undefinedVariable (name : String)
  | arityMismatch (expected got : Nat)
  | notCallable (tag : Tag)
  | indexOutOfBounds (index length : Int)
  | returnOutsideFunction
  /-- Calls are nested too deeply. -/
  | callsTooDeep
  /-- An expression is nested too deeply, outside any call. -/
  | nestingTooDeep
  deriving Repr, DecidableEq

namespace Fault

def name : Fault → ErrorName
  | .operandNotNumber _ | .operandsNotNumbers _ _ _ | .notAddable _ _ | .indexNotInteger _
  | .notIndexable _ | .storedNotString _ | .noPlace | .lenArgument _ | .pushArgument _ =>
    .typeMismatch
  | .divisionByZero | .moduloByZero => .divisionByZero
  | .undefinedVariable _ => .undefinedVariable
  | .arityMismatch _ _ => .arityMismatch
  | .notCallable _ => .notCallable
  | .indexOutOfBounds _ _ => .indexOutOfBounds
  | .returnOutsideFunction => .returnOutsideFunction
  | .callsTooDeep | .nestingTooDeep => .stackOverflow

def message : Fault → String
  | .operandNotNumber tag => "Operand of '-' must be a number, got " ++ tag.text ++ "."
  | .operandsNotNumbers operator left right =>
    "Operands of '" ++ operator ++ "' must be numbers, got " ++ left.text ++ " and " ++
      right.text ++ "."
  | .notAddable left right =>
    "Operands of '+' must be numbers or include a string, got " ++ left.text ++ " and " ++
      right.text ++ "."
  | .indexNotInteger shown => "Index must be an integer, got " ++ shown ++ "."
  | .notIndexable tag => "Only arrays and strings can be indexed, not " ++ tag.text ++ "."
  | .storedNotString tag => "Can only store a string into a string, not " ++ tag.text ++ "."
  | .noPlace => "Strings are immutable; index assignment needs a variable or array slot."
  | .lenArgument tag => "len expects a string or array, got " ++ tag.text ++ "."
  | .pushArgument tag => "push expects an array, got " ++ tag.text ++ "."
  | .divisionByZero => "Division by zero."
  | .moduloByZero => "Modulo by zero."
  | .undefinedVariable name => "Undefined variable '" ++ name ++ "'."
  | .arityMismatch expected got =>
    "Expected " ++ Decimal.integerText expected ++ " arguments but got " ++
      Decimal.integerText got ++ "."
  | .notCallable tag => "Can only call functions, not " ++ tag.text ++ "."
  | .indexOutOfBounds index length =>
    "index " ++ Decimal.integerText index ++ " out of bounds for length " ++
      Decimal.integerText length
  | .returnOutsideFunction => "Can't return from top-level code."
  | .callsTooDeep => "Stack overflow."
  | .nestingTooDeep => "Expression nesting too deep."

/-- The name and the message together. -/
def text (fault : Fault) : String := fault.name.text ++ ": " ++ fault.message

/-- The diagnostic of an error at a token; without one it has no line of its own. -/
def diagnostic (fault : Fault) (token : Option Token) : Diagnostic :=
  ⟨(token.map (·.line)).getD (.int 0), .runtime fault.name, fault.message⟩

end Fault

end GameScript
