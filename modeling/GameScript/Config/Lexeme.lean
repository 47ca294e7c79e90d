import GameScript.Config.Error
import GameScript.Config.Terminal
import GameScript.Text.Digit

/-! Reading one lexeme of a game configuration, given what may stand at its place. -/

namespace GameScript.Config

/-- A lexeme with its text and where it starts. -/
structure Lexeme where
  terminal : Terminal
  text : String
  position : Position
  deriving Repr, DecidableEq

namespace Lexeme

/-! ## Blanks and comments -/

def isBlank (c : Char) : Bool :=
  c = ' ' || c = '\t' || c.toNat = 12 || c = '\r' || c = '\n'

/-- Skips blanks and comments. A comment goes on to the end of its line. -/
def skip (inComment : Bool) (position : Position) : List Char → Position × List Char
  | [] => (position, [])
  | c :: rest =>
    let next := position.after c
    if inComment then skip (c ≠ '\n') next rest
    else if isBlank c then skip false next rest
    else if c = '#' || (c = '/' && rest.head? = some '/') then skip true next rest
    else (position, c :: rest)

/-! ## Numbers -/

/-- Digits, with a fraction if a digit follows the point; empty without a digit at the start. -/
def unsignedNumeral (cs : List Char) : List Char :=
  let whole := cs.takeWhile Text.isDigit
  if whole.isEmpty then []
  else
    match cs.drop whole.length with
    | '.' :: d :: rest =>
      if Text.isDigit d then whole ++ '.' :: d :: rest.takeWhile Text.isDigit else whole
    | _ => whole

/-- The number at the start of a text, with its sign; empty if there is none. -/
def numeral (cs : List Char) : List Char :=
  match cs with
  | '-' :: rest =>
    let digits := unsignedNumeral rest
    if digits.isEmpty then [] else '-' :: digits
  | _ => unsignedNumeral cs

/-! ## Words -/

def isNameStart (c : Char) : Bool := ('a' ≤ c && c ≤ 'z') || ('A' ≤ c && c ≤ 'Z') || c = '_'

def isNameChar (c : Char) : Bool := isNameStart c || ('0' ≤ c && c ≤ '9')

/-- The longest name at the start of a text. -/
def nameText (cs : List Char) : List Char :=
  if (cs.head?.map isNameStart).getD false then cs.takeWhile isNameChar else []

/-- The keyword of a terminal. -/
def keyword? : Terminal → Option Keyword
  | .word keyword => some keyword
  | _ => none

/-- Of two keywords, the one with the longer text; the first if they are equally long. -/
def longer (a : Option Keyword) (b : Keyword) : Option Keyword :=
  match a with
  | none => some b
  | some a => if a.text.length < b.text.length then some b else some a

/-- A word where names may stand: the longest name, which is a keyword if that may stand too. -/
def readName (expected : Expected) (cs : List Char) : Option (Terminal × List Char) :=
  let text := nameText cs
  if text.isEmpty then none
  else
    match (expected.filterMap keyword?).find? (·.text.toList = text) with
    | some keyword => some (.word keyword, text)
    | none => some (.name, text)

/-- A word where no names may stand: the longest keyword that the text begins with. -/
def readKeyword (expected : Expected) (cs : List Char) : Option (Terminal × List Char) :=
  let found := (expected.filterMap keyword?).filter (·.text.toList.isPrefixOf cs)
  (found.foldl longer none).map fun keyword => (.word keyword, keyword.text.toList)

/-! ## Texts in quotes -/

/-- The text up to the first quote that does not follow an odd number of backslashes, the quote
included. It lies on one line. `escaped` tells whether the number so far is odd. -/
def untilQuote (escaped : Bool) : List Char → Option (List Char)
  | [] => none
  | c :: rest =>
    if c = '\n' then none
    else if c = '"' && !escaped then some [c]
    else (untilQuote (c = '\\' && !escaped) rest).map (c :: ·)

/-- The text in quotes at the start of a text. -/
def quotedText (cs : List Char) : Option (List Char) :=
  match cs with
  | '"' :: rest => (untilQuote false rest).map ('"' :: ·)
  | _ => none

/-! ## All terminals -/

/-- A number, with the unit after it if that may stand there. -/
def readNumber (expected : Expected) (cs : List Char) : Option (Terminal × List Char) :=
  let digits := numeral cs
  if digits.isEmpty then none
  else
    let plain := if Terminal.number ∈ expected then some (Terminal.number, digits) else none
    match cs.drop digits.length with
    | 's' :: rest =>
      let ends := !(rest.head?.map isNameChar).getD false
      if Terminal.duration ∈ expected && ends then some (.duration, digits ++ ['s']) else plain
    | '%' :: _ =>
      if Terminal.percentage ∈ expected then some (.percentage, digits ++ ['%']) else plain
    | _ => plain

/-- A mark that may stand here. -/
def readMark (expected : Expected) (cs : List Char) : Option (Terminal × List Char) :=
  (Mark.all.find? fun mark => Terminal.mark mark ∈ expected && mark.text.toList.isPrefixOf cs).map
    fun mark => (.mark mark, mark.text.toList)

/-- The terminal at the start of a text, and its text. -/
def read (expected : Expected) (cs : List Char) : Option (Terminal × List Char) :=
  let number := readNumber expected cs
  let word := if Terminal.name ∈ expected then readName expected cs else readKeyword expected cs
  let quoted := if Terminal.quoted ∈ expected then (quotedText cs).map (Terminal.quoted, ·) else none
  number.or (word.or (quoted.or (readMark expected cs)))

end Lexeme

end GameScript.Config
