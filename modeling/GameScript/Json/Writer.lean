import GameScript.Json.Basic

/-! JSON text of data, on one line or indented. -/

namespace GameScript.Json

/-- Numbers in JSON text have the plain layout; the infinities and the undefined number have names
of their own. -/
def numbers : Decimal.Notation := { Decimal.Notation.plain with infinity := "Infinity", undefined := "NaN" }

/-- A `u` escape of one 16-bit unit. -/
def unitEscape (unit : Nat) : List Char := '\\' :: 'u' :: Text.hex 4 unit

/-- The escapes of a character by number: one unit, or two for characters beyond 16 bits. -/
def unitEscapes (c : Char) : List Char :=
  let n := c.toNat
  if n < 0x10000 then unitEscape n
  else unitEscape (0xD800 + (n - 0x10000) / 0x400) ++ unitEscape (0xDC00 + (n - 0x10000) % 0x400)

/-- A character inside a JSON string. With `ascii`, everything from the delete character on is
escaped too. -/
def stringChar (ascii : Bool) (c : Char) : List Char :=
  if c = '"' || c = '\\' then ['\\', c]
  else if c = '\n' then ['\\', 'n']
  else if c = '\r' then ['\\', 'r']
  else if c = '\t' then ['\\', 't']
  else if c.toNat = 12 then ['\\', 'f']
  else if c.toNat = 8 then ['\\', 'b']
  else if c.toNat < 0x20 || (ascii && 0x7F ≤ c.toNat) then unitEscapes c
  else [c]

/-- A JSON string. -/
def stringText (ascii : Bool) (s : String) : String :=
  String.ofList ('"' :: s.toList.flatMap (stringChar ascii) ++ ['"'])

/-! ## One line -/

mutual

/-- A datum on one line, with a space after each comma and colon. -/
def oneLine (ascii : Bool) : Json → String
  | .null => "null"
  | .bool value => if value then "true" else "false"
  | .int value => Decimal.integerText value
  | .number value => numbers.write value
  | .string value => stringText ascii value
  | .array items => "[" ++ String.intercalate ", " (oneLineItems ascii items) ++ "]"
  | .object members => "\x7b" ++ String.intercalate ", " (oneLineMembers ascii members) ++ "\x7d"
termination_by structural datum => datum

def oneLineItems (ascii : Bool) : List Json → List String
  | [] => []
  | item :: rest => oneLine ascii item :: oneLineItems ascii rest
termination_by structural items => items

def oneLineMembers (ascii : Bool) : List (String × Json) → List String
  | [] => []
  | (key, value) :: rest =>
    (stringText ascii key ++ ": " ++ oneLine ascii value) :: oneLineMembers ascii rest
termination_by structural members => members

end

/-! ## Indented -/

/-- A line break and the indent of a nesting level. -/
def newline (level : Nat) : String := String.ofList ('\n' :: List.replicate (2 * level) ' ')

/-- Parts between brackets, each on a line of its own. No parts leave the brackets empty. -/
def bracketed (opening closing : String) (level : Nat) (parts : List String) : String :=
  if parts.isEmpty then opening ++ closing
  else
    opening ++ newline (level + 1) ++ String.intercalate ("," ++ newline (level + 1)) parts ++
      newline level ++ closing

mutual

/-- A datum with each item and member on a line of its own, two columns further in per level. -/
def indented (ascii : Bool) : Json → Nat → String
  | .null, _ => "null"
  | .bool value, _ => if value then "true" else "false"
  | .int value, _ => Decimal.integerText value
  | .number value, _ => numbers.write value
  | .string value, _ => stringText ascii value
  | .array items, level => bracketed "[" "]" level (indentedItems ascii items (level + 1))
  | .object members, level =>
    bracketed "\x7b" "\x7d" level (indentedMembers ascii members (level + 1))
termination_by structural datum => datum

def indentedItems (ascii : Bool) : List Json → Nat → List String
  | [], _ => []
  | item :: rest, level => indented ascii item level :: indentedItems ascii rest level
termination_by structural items => items

def indentedMembers (ascii : Bool) : List (String × Json) → Nat → List String
  | [], _ => []
  | (key, value) :: rest, level =>
    (stringText ascii key ++ ": " ++ indented ascii value level) ::
      indentedMembers ascii rest level
termination_by structural members => members

end

end GameScript.Json
