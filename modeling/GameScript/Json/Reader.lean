import GameScript.Json.Basic
import GameScript.Text.Units

/-! Reading JSON text.

The three names for numbers outside the format's own range are read too. Of members with one name
the last one counts, at the place of the first. Arrays and objects may nest only so deeply. -/

namespace GameScript.Json

/-- Why a text is not read. -/
inductive ReadError where
  /-- The text is not JSON. -/
  | malformed
  /-- An integer has more digits than are converted. -/
  | tooManyDigits
  /-- Too many arrays and objects are open at once. -/
  | tooDeep
  deriving Repr, DecidableEq

/-- The longest integer that is converted, in digits. -/
def maxDigits : Nat := 4300

def skipBlanks (cs : List Char) : List Char :=
  cs.dropWhile fun c => c = ' ' || c = '\t' || c = '\n' || c = '\r'

/-! ## Strings -/

/-- The character that a one-letter escape stands for. -/
def letterEscape? (c : Char) : Option Char :=
  if c = '"' || c = '\\' || c = '/' then some c
  else if c = 'b' then some (Char.ofNat 8)
  else if c = 'f' then some (Char.ofNat 12)
  else if c = 'n' then some '\n'
  else if c = 'r' then some '\r'
  else if c = 't' then some '\t'
  else none

/-- The characters of a string up to its closing quote. Control characters must be escaped. `done`
holds the codes so far, in reverse. -/
def stringRest (done : List Nat) : List Char → Except ReadError (String × List Char)
  | [] => .error .malformed
  | '"' :: rest => .ok (String.ofList (Text.ofCodes done.reverse), rest)
  | '\\' :: 'u' :: a :: b :: c :: d :: rest =>
    match Text.hexValue? [a, b, c, d] with
    | some code => stringRest (code :: done) rest
    | none => .error .malformed
  | '\\' :: c :: rest =>
    match letterEscape? c with
    | some escaped => stringRest (escaped.toNat :: done) rest
    | none => .error .malformed
  | c :: rest =>
    if c.toNat < 0x20 || c = '\\' then .error .malformed else stringRest (c.toNat :: done) rest

/-! ## Numbers -/

def isAsciiDigit (c : Char) : Bool := '0' ≤ c && c ≤ '9'

/-- The digits after a point, if there are any. -/
def fractionDigits (cs : List Char) : Option (List Char × List Char) :=
  match cs with
  | '.' :: rest =>
    let digits := rest.takeWhile isAsciiDigit
    if digits.isEmpty then none else some (digits, rest.dropWhile isAsciiDigit)
  | _ => none

/-- The value of an exponent, if there is one. -/
def exponent (cs : List Char) : Option (Int × List Char) :=
  match cs with
  | c :: rest =>
    if c = 'e' || c = 'E' then
      let (negative, rest) := match rest with
        | '-' :: rest => (true, rest)
        | '+' :: rest => (false, rest)
        | _ => (false, rest)
      let digits := rest.takeWhile isAsciiDigit
      if digits.isEmpty then none
      else
        let n : Int := Text.digitsValue digits
        some (if negative then -n else n, rest.dropWhile isAsciiDigit)
    else none
  | [] => none

/-- A number whose sign has been read. A leading zero stands alone. -/
def unsignedNumber (negative : Bool) (cs : List Char) : Except ReadError (Json × List Char) :=
  let digits := match cs with
    | '0' :: _ => ['0']
    | _ => cs.takeWhile isAsciiDigit
  if digits.isEmpty then .error .malformed
  else
    let rest := cs.drop digits.length
    let fraction := fractionDigits rest
    let afterFraction := (fraction.map (·.2)).getD rest
    let power := exponent afterFraction
    if fraction.isNone && power.isNone then
      if maxDigits < digits.length then .error .tooManyDigits
      else
        let n : Int := Text.digitsValue digits
        .ok (.int (if negative then -n else n), rest)
    else
      let decimals := (fraction.map (·.1)).getD []
      let value := Decimal.ofDigits negative (Text.digitsValue (digits ++ decimals))
        ((power.map (·.1)).getD 0 - decimals.length)
      .ok (.number value, (power.map (·.2)).getD afterFraction)

/-! ## Data -/

/-- The constants with their names. -/
def constants : List (String × Json) :=
  [("null", .null), ("true", .bool true), ("false", .bool false), ("NaN", .number (0.0 / 0.0)),
   ("Infinity", .number (1.0 / 0.0)), ("-Infinity", .number (-1.0 / 0.0))]

/-- The constant at the start of a text. -/
def constant? (cs : List Char) : Option (Json × List Char) :=
  constants.findSome? fun (name, datum) =>
    if name.toList.isPrefixOf cs then some (datum, cs.drop name.length) else none

/-- A comma, or the closing bracket. -/
def separator (closing : Char) (cs : List Char) : Except ReadError (Bool × List Char) :=
  match skipBlanks cs with
  | c :: rest =>
    if c = ',' then pure (true, rest)
    else if c = closing then pure (false, rest)
    else .error .malformed
  | [] => .error .malformed

mutual

/-- One datum at the start of a text, in which at most `room` arrays and objects are open at once. Each
call consumes at least one character before the next, so the text's length is enough fuel. -/
def datum : Nat → Nat → List Char → Except ReadError (Json × List Char)
  | 0, _, _ => .error .malformed
  | fuel + 1, room, cs =>
    match skipBlanks cs with
    | '"' :: rest => do
      let (text, rest) ← stringRest [] rest
      pure (.string text, rest)
    | '[' :: rest =>
      if room = 0 then .error .tooDeep
      else match skipBlanks rest with
      | ']' :: rest => pure (.array [], rest)
      | rest => do
        let (items, rest) ← itemsFrom fuel (room - 1) [] rest
        pure (.array items, rest)
    | '\x7b' :: rest =>
      if room = 0 then .error .tooDeep
      else match skipBlanks rest with
      | '\x7d' :: rest => pure (.object [], rest)
      | rest => do
        let (members, rest) ← membersFrom fuel (room - 1) [] rest
        pure (.object members, rest)
    | start =>
      match constant? start with
      | some result => pure result
      | none =>
        match start with
        | '-' :: rest => unsignedNumber true rest
        | rest => unsignedNumber false rest

/-- The items of an array up to its closing bracket. -/
def itemsFrom : Nat → Nat → List Json → List Char → Except ReadError (List Json × List Char)
  | 0, _, _, _ => .error .malformed
  | fuel + 1, room, done, cs => do
    let (item, rest) ← datum fuel room cs
    let (more, rest) ← separator ']' rest
    if more then itemsFrom fuel room (item :: done) rest
    else pure ((item :: done).reverse, rest)

/-- The members of an object up to its closing bracket. -/
def membersFrom : Nat → Nat → Fields Json → List Char → Except ReadError (Fields Json × List Char)
  | 0, _, _, _ => .error .malformed
  | fuel + 1, room, done, cs =>
    match skipBlanks cs with
    | '"' :: rest => do
      let (key, rest) ← stringRest [] rest
      match skipBlanks rest with
      | ':' :: rest =>
        let (value, rest) ← datum fuel room rest
        let (more, rest) ← separator '\x7d' rest
        if more then membersFrom fuel room (Fields.put done key value) rest
        else pure (Fields.put done key value, rest)
      | _ => .error .malformed
    | _ => .error .malformed

end

/-- The datum that a text writes, with nothing but blanks around it. At most `room` arrays and objects
may be open at once. -/
def read (room : Nat) (text : String) : Except ReadError Json := do
  let cs := text.toList
  let (result, rest) ← datum (2 * cs.length + 1) room cs
  if (skipBlanks rest).isEmpty then pure result else .error .malformed

end GameScript.Json
