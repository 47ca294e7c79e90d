import GameScript.Token.Basic

/-! The names that scopes bind.

A name is read off a token's lexeme. In a source that is always a text; of other data the constants
and the numbers can serve as names too, and numbers of one value are one name however they are
written. -/

namespace GameScript

/-- A name. -/
inductive Name where
  | text (value : String)
  | nil
  /-- A whole number; the truth values count as one and zero. -/
  | whole (value : Int)
  /-- Any other number, by its bits. -/
  | fraction (bits : UInt64)
  deriving Repr, DecidableEq

/-- The name that a datum serves as. Arrays and objects are no names. -/
def Name.ofJson? : Json → Option Name
  | .string value => some (.text value)
  | .null => some .nil
  | .bool value => some (.whole (if value then 1 else 0))
  | .int value => some (.whole value)
  | .number value =>
    match Decimal.integer? value with
    | some n => some (.whole n)
    | none => some (.fraction value.toBits)
  | .array _ | .object _ => none

/-- The name that a token's lexeme serves as. -/
def Token.name? (token : Token) : Option Name := Name.ofJson? token.lexeme

end GameScript
