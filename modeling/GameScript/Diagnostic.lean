import GameScript.Token.Basic

/-! Problems found in a program, and the ledger that keeps them in order. -/

namespace GameScript

/-- The names of runtime errors. -/
inductive ErrorName where
  | runtimeError
  | typeMismatch
  | divisionByZero
  | undefinedVariable
  | arityMismatch
  | notCallable
  | indexOutOfBounds
  | returnOutsideFunction
  | stackOverflow
  deriving Repr, DecidableEq

/-- The name as diagnostics show it. -/
def ErrorName.text : ErrorName → String
  | .runtimeError => "RuntimeError"
  | .typeMismatch => "TypeMismatch"
  | .divisionByZero => "DivisionByZero"
  | .undefinedVariable => "UndefinedVariable"
  | .arityMismatch => "ArityMismatch"
  | .notCallable => "NotCallable"
  | .indexOutOfBounds => "IndexOutOfBounds"
  | .returnOutsideFunction => "ReturnOutsideFunction"
  | .stackOverflow => "StackOverflow"

/-- What a diagnostic is about. -/
inductive Origin where
  /-- A problem on a line of the source. -/
  | line
  /-- A problem at a token. -/
  | token (lexeme : String)
  /-- A problem at the end of the source. -/
  | ending
  /-- An error of the running program. -/
  | runtime (name : ErrorName)
  deriving Repr, DecidableEq

/-- Diagnostics of the source keep a program from running. -/
def Origin.isSyntax : Origin → Bool
  | .runtime _ => false
  | _ => true

/-- One problem, with the line that it is reported on. -/
structure Diagnostic where
  line : Json
  origin : Origin
  message : String
  deriving Repr

namespace Diagnostic

/-- The diagnostic as it is reported. -/
def text (d : Diagnostic) : String :=
  "[line " ++ d.line.displayBare ++ "] " ++
    (match d.origin with
    | .line => "Error"
    | .token lexeme => "Error at '" ++ lexeme ++ "'"
    | .ending => "Error at end"
    | .runtime name => "Runtime error (" ++ name.text ++ ")") ++
    ": " ++ d.message

/-- A problem at a token; the token that ends the program has no text to show. -/
def atToken (token : Token) (message : String) : Diagnostic :=
  ⟨token.line, if token.kind = .eof then .ending else .token token.text, message⟩

end Diagnostic

/-- All diagnostics so far, and whether there were any of each sort since the last reset. -/
structure Ledger where
  items : Array Diagnostic := #[]
  hadError : Bool := false
  hadRuntimeError : Bool := false

namespace Ledger

/-- Adds a diagnostic and raises the flag of its sort. -/
def report (ledger : Ledger) (d : Diagnostic) : Ledger where
  items := ledger.items.push d
  hadError := ledger.hadError || d.origin.isSyntax
  hadRuntimeError := ledger.hadRuntimeError || !d.origin.isSyntax

/-- Adds several diagnostics, in order. -/
def reportAll (ledger : Ledger) (ds : List Diagnostic) : Ledger := ds.foldl report ledger

/-- The texts of all diagnostics, in order. -/
def messages (ledger : Ledger) : List String := ledger.items.toList.map Diagnostic.text

/-- Forgets everything. -/
def reset (_ : Ledger) : Ledger := {}

end Ledger

end GameScript
