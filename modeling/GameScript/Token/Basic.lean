import GameScript.Json.Basic
import GameScript.Token.Kind

/-! Tokens: a kind, the text it was read from, its literal value and its line.

A token of a source has a text and a whole number for its line. A token that comes from a file may
have any datum in either place, which is kept as it is. -/

namespace GameScript

/-- A token. The literal of a number or a string is its value; other tokens have none. -/
structure Token where
  kind : TokenKind
  lexeme : Json
  literal : Json
  line : Json
  deriving Repr, Inhabited

namespace Token

/-- The token that ends every program. -/
def finish (line : Int) : Token := ⟨.eof, .string "", .null, .int line⟩

/-- The lexeme as messages show it. -/
def text (token : Token) : String := token.lexeme.displayBare

/-- A token as listings show it. -/
def listing (token : Token) : String :=
  "Token(" ++ token.kind.name ++ ", " ++ token.lexeme.display ++ ", " ++
    token.literal.display ++ ", line=" ++ token.line.displayBare ++ ")"

end Token

end GameScript
