import GameScript.Config.Lexeme

/-! The source still to be read, one lexeme ahead. -/

namespace GameScript.Config

/-- Where reading stands. The next lexeme has been read already; there is none at the end. -/
structure Reader where
  rest : List Char
  position : Position
  next : Option Lexeme
  /-- Where the last lexeme started. -/
  last : Position

namespace Reader

/-- Reads the lexeme after the given one. If nothing fits, a lexeme of any kind is read at the same
place, to be reported. -/
def fetch (rest : List Char) (position last : Position) (expected : Expected) :
    Except Error Reader :=
  match Lexeme.skip false position rest with
  | (position, []) => .ok ⟨[], position, none, last⟩
  | (position, c :: rest) =>
    match Lexeme.read expected (c :: rest) with
    | some (terminal, text) =>
      .ok ⟨(c :: rest).drop text.length, position.afterAll text,
        some ⟨terminal, String.ofList text, position⟩, position⟩
    | none =>
      match Lexeme.read Expected.anything (c :: rest) with
      | some (_, text) => .error (.unexpected (String.ofList text) position)
      | none => .error (.unexpectedCharacter c position)

/-- The error of a next lexeme that does not fit. -/
def unexpected (reader : Reader) : Error :=
  match reader.next with
  | some lexeme => .unexpected lexeme.text lexeme.position
  | none => .unexpectedEnd reader.last

end Reader

/-- A step of reading. -/
abbrev Read := EStateM Error Reader

namespace Read

def unexpected {α : Type} : Read α := fun reader => .error reader.unexpected reader

/-- The terminal of the next lexeme, if there is one. -/
def peek : Read (Option Terminal) := fun reader => .ok (reader.next.map (·.terminal)) reader

/-- Takes the next lexeme, whatever it is. The one after it is among `expected`. -/
def take (expected : Expected) : Read Lexeme := fun reader =>
  match reader.next with
  | none => .error reader.unexpected reader
  | some lexeme =>
    match Reader.fetch reader.rest reader.position reader.last expected with
    | .ok reader => .ok lexeme reader
    | .error error => .error error reader

/-- Takes the next lexeme if it is a terminal, or fails. -/
def expect (terminal : Terminal) (expected : Expected) : Read Lexeme := do
  if (← peek) = some terminal then take expected else unexpected

/-- Takes a name. -/
def name (expected : Expected) : Read String := do
  return (← expect .name expected).text

/-- Characters left, with the lexeme that has been read already: this bounds every loop that takes a
lexeme or more per round. -/
def remaining : Read Nat := fun reader => .ok (reader.rest.length + 1) reader

/-- Items up to a closing bracket, which is taken. -/
def itemsFrom {α : Type} (item : Read α) (after : Expected) : Nat → List α → Read (List α)
  | 0, _ => unexpected
  | fuel + 1, done => do
    if (← peek) = some Expected.closeBracket then
      discard <| take after
      pure done.reverse
    else
      let next ← item
      itemsFrom item after fuel (next :: done)

/-- A block in brackets: what its items begin with, and what may follow it. -/
def block {α : Type} (items after : Expected) (item : Read α) : Read (List α) := do
  discard <| expect Expected.openBracket items
  itemsFrom item after ((← remaining) + 1) []

/-- Items between commas, at least one, up to a closing mark, which is taken. -/
def listFrom {α : Type} (item : Read α) (closing : Mark) (items after : Expected) :
    Nat → List α → Read (List α)
  | 0, _ => unexpected
  | fuel + 1, done => do
    let next ← item
    match ← peek with
    | some (.mark mark) =>
      if mark = .comma then
        discard <| take items
        listFrom item closing items after fuel (next :: done)
      else if mark = closing then
        discard <| take after
        pure (next :: done).reverse
      else unexpected
    | _ => unexpected

/-- Items between commas whose opening mark has been taken. There may be none. -/
def list {α : Type} (item : Read α) (closing : Mark) (items after : Expected) :
    Read (List α) := do
  if (← peek) = some (.mark closing) then
    discard <| take after
    pure []
  else listFrom item closing items after ((← remaining) + 1) []

end Read

end GameScript.Config
