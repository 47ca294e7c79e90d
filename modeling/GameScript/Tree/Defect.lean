import GameScript.Tree.Basic

/-! What can be wrong with a tree that no program text gave, and with a step that no check precedes.

Trees of parsed programs have none of these defects. -/

namespace GameScript

/-- A defect of a tree, or of the data that should describe one. -/
inductive Defect where
  /-- A node that cannot be printed. -/
  | unprintable (type : String)
  /-- A node that is no statement, where one should be. -/
  | unknownStatement (type : String)
  /-- A node that is no expression, where one should be. -/
  | unknownExpression (type : String)
  | unknownUnary (lexeme : String)
  | unknownBinary (lexeme : String)
  /-- Something other than a list of parts, where one should be. -/
  | wrongShape
  /-- A datum that describes no node. -/
  | invalidObject
  /-- An object of no known node type; the type as it is shown. -/
  | unknownType (shown : String)
  /-- An object without a needed member, or a token kind that does not exist; the key as shown. -/
  | missingKey (shown : String)
  /-- A datum that is no object, where a program should be. -/
  | notObject
  /-- An object of another type, where a program should be. -/
  | notProgram
  /-- An integer beyond all numbers of programs. -/
  | tooLarge
  /-- Nested too deeply. -/
  | tooDeep
  /-- A position that points to no item. -/
  | outOfRange
  /-- A division by zero. -/
  | zeroDivisor
  deriving Repr, DecidableEq

/-- The message of a defect, for those that have one. -/
def Defect.message? : Defect → Option String
  | .unprintable type => some ("cannot print " ++ type)
  | .unknownStatement type => some ("unknown statement type: " ++ type)
  | .unknownExpression type => some ("unknown expression type: " ++ type)
  | .unknownUnary lexeme => some ("unknown unary operator " ++ lexeme)
  | .unknownBinary lexeme => some ("unknown binary operator " ++ lexeme)
  | .invalidObject => some "Invalid AST object"
  | .unknownType shown => some ("Unknown AST node type: " ++ shown)
  | .missingKey shown => some shown
  | .notProgram => some "AST JSON must hold a Program object"
  | .wrongShape | .notObject | .tooLarge | .tooDeep | .outOfRange | .zeroDivisor => none

end GameScript
