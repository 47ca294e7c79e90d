import GameScript.Decimal.Notation
import GameScript.Text.Quoted

/-! Why a game configuration does not compile. -/

namespace GameScript.Config

/-- A place in a source, counted from one. -/
structure Position where
  line : Nat
  column : Nat
  deriving Repr, DecidableEq

namespace Position

def start : Position := ⟨1, 1⟩

/-- The position after a character. -/
def after (position : Position) (c : Char) : Position :=
  if c = '\n' then ⟨position.line + 1, 1⟩ else ⟨position.line, position.column + 1⟩

/-- The position after a text. -/
def afterAll (position : Position) (text : List Char) : Position := text.foldl after position

end Position

/-- What reacts to triggers. -/
inductive Owner where
  | ability
  | effect
  deriving Repr, DecidableEq

def Owner.text : Owner → String
  | .ability => "ability"
  | .effect => "status effect"

/-- Why a source does not compile. All but the last four have a place in it. -/
inductive Error where
  /-- A lexeme that does not fit its place. -/
  | unexpected (text : String) (position : Position)
  /-- A character that begins no lexeme. -/
  | unexpectedCharacter (c : Char) (position : Position)
  /-- The source ends too early; the position is that of the last lexeme. -/
  | unexpectedEnd (position : Position)
  | unknownTrigger (owner : Owner) (name : String) (line : Nat)
  /-- A text in quotes has an escape that stands for nothing. -/
  | badText
  /-- A text in quotes holds a character that no text can hold. -/
  | badCharacter
  /-- An integer has more digits than are converted. -/
  | tooManyDigits
  /-- Too many lists are open at once. -/
  | tooDeep
  deriving Repr, DecidableEq

namespace Error

def line? : Error → Option Nat
  | .unexpected _ position | .unexpectedCharacter _ position | .unexpectedEnd position =>
    some position.line
  | .unknownTrigger _ _ line => some line
  | .badText | .badCharacter | .tooManyDigits | .tooDeep => none

def column? : Error → Option Nat
  | .unexpected _ position | .unexpectedCharacter _ position | .unexpectedEnd position =>
    some position.column
  | .unknownTrigger _ _ _ | .badText | .badCharacter | .tooManyDigits | .tooDeep => none

/-- The problem without its place. -/
def description : Error → String
  | .unexpected text _ => "unexpected " ++ Text.quoted text
  | .unexpectedCharacter c _ => "unexpected character " ++ Text.quoted (String.ofList [c])
  | .unexpectedEnd _ => "unexpected end of input"
  | .unknownTrigger owner name _ => "unknown " ++ owner.text ++ " trigger " ++ Text.quoted name
  | .badText => "bad text"
  | .badCharacter => "bad character in a text"
  | .tooManyDigits => "too many digits"
  | .tooDeep => "lists nest too deeply"

/-- The problem with its line, and its column if that is known too. -/
def message (error : Error) : String :=
  match error.line?, error.column? with
  | some line, some column =>
    "[line " ++ Decimal.integerText line ++ ", column " ++ Decimal.integerText column ++ "] " ++
      error.description
  | some line, none => "[line " ++ Decimal.integerText line ++ "] " ++ error.description
  | none, _ => error.description

end Error

end GameScript.Config
