import GameScript.Diagnostic
import GameScript.Tree.Basic

/-! The tokens still to be parsed, and the steps that every grammar rule is made of. -/

namespace GameScript

/-- Why a rule stops. -/
inductive Interrupt where
  /-- The tokens do not fit the rule; this has been reported. -/
  | syntaxError
  /-- Too many rules are open. -/
  | tooDeep
  deriving Repr, DecidableEq

/-- Where parsing stands: the tokens not yet read, the token that ends the program, and what has been
reported. -/
structure Cursor where
  rest : List Token
  finish : Token
  reported : List Diagnostic := []

namespace Cursor

/-- The next token, which is the one that ends the program once all others are read. -/
def peek (cursor : Cursor) : Token := cursor.rest.head?.getD cursor.finish

/-- Is there nothing left but the end? -/
def atEnd (cursor : Cursor) : Bool := cursor.peek.kind = .eof

/-- The cursor after the next token. The end is never passed. -/
def advance (cursor : Cursor) : Cursor := { cursor with rest := cursor.rest.tail }

/-- Adds a problem at a token. -/
def report (cursor : Cursor) (token : Token) (message : String) : Cursor :=
  { cursor with reported := cursor.reported ++ [Diagnostic.atToken token message] }

/-- The tokens from the next boundary between statements on: after a semicolon or before a word that
starts a statement. `previous` is the token just read. -/
def resume (previous : Token) : List Token → List Token
  | [] => []
  | token :: rest =>
    if previous.kind = .semicolon || token.kind.startsStatement then token :: rest
    else resume token rest

/-- Skips the token where parsing failed and all up to the next boundary between statements. -/
def synchronize (cursor : Cursor) : Cursor :=
  match cursor.rest with
  | [] => cursor
  | token :: rest => { cursor with rest := resume token rest }

end Cursor

/-- A step of parsing. It keeps its cursor when it stops. -/
abbrev Parse := EStateM Interrupt Cursor

namespace Parse

/-- Reads the next token if its kind is wanted. The end is never read. -/
def accept (wanted : TokenKind → Bool) : Parse (Option Token) := fun cursor =>
  match cursor.rest with
  | [] => .ok none cursor
  | token :: _ =>
    if token.kind ≠ .eof && wanted token.kind then .ok (some token) cursor.advance
    else .ok none cursor

/-- Is the next token of a kind? -/
def check (kind : TokenKind) : Parse Bool := fun cursor =>
  .ok (!cursor.atEnd && cursor.peek.kind = kind) cursor

def atEnd : Parse Bool := fun cursor => .ok cursor.atEnd cursor

/-- Reports a problem at a token and goes on. -/
def complain (token : Token) (message : String) : Parse Unit := fun cursor =>
  .ok () (cursor.report token message)

/-- Reports a problem at the next token and goes on. -/
def complainHere (message : String) : Parse Unit := fun cursor =>
  .ok () (cursor.report cursor.peek message)

/-- Reports a problem at the next token and stops. -/
def fail {α : Type} (message : String) : Parse α := fun cursor =>
  .error .syntaxError (cursor.report cursor.peek message)

/-- Stops because too many rules are open. -/
def tooDeep {α : Type} : Parse α := fun cursor => .error .tooDeep cursor

/-- Reads a token of a kind, or fails. -/
def expect (kind : TokenKind) (message : String) : Parse Token := do
  match ← accept (· = kind) with
  | some token => pure token
  | none => fail message

/-- What follows a token of a kind, if there is one. -/
def optional (kind : TokenKind) (rule : Parse Node) : Parse Node := do
  match ← accept (· = kind) with
  | some _ => rule
  | none => pure .absent

/-- How many tokens are left. -/
def remaining : Parse Nat := fun cursor => .ok cursor.rest.length cursor

/-- Repeats a step that gives a new state until it gives none, at most `fuel` times. -/
def repeatWithin {σ : Type} (step : σ → Parse (Option σ)) : Nat → σ → Parse σ
  | 0, state => pure state
  | fuel + 1, state => do
    match ← step state with
    | some next => repeatWithin step fuel next
    | none => pure state

/-- Repeats a step until it gives no new state. Each round before that reads a token or more, so there
are no more rounds than tokens left. -/
def repeatWhile {σ : Type} (step : σ → Parse (Option σ)) (state : σ) : Parse σ := do
  repeatWithin step (← remaining) state

/-- What is reported of a declaration that nests too deeply. -/
def tooDeepMessage : String := "Expression nesting too deep."

/-- Runs a rule for a whole declaration. If it stops, parsing goes on at the next boundary between
statements, without the declaration. -/
def recovering (rule : Parse Node) : Parse (Option Node) := fun cursor =>
  match rule cursor with
  | .ok node cursor => .ok (some node) cursor
  | .error .syntaxError cursor => .ok none cursor.synchronize
  | .error .tooDeep cursor =>
    .ok none (cursor.report cursor.peek tooDeepMessage).synchronize

/-- The most parameters or arguments that a function may have. -/
def maxArguments : Nat := 255

/-- Reports a message, if one is given, at an item beyond the most that a function may have. -/
def complainIfCrowded (crowded : Option String) (before : Nat) : Parse Unit :=
  match crowded with
  | some message => if maxArguments ≤ before then complainHere message else pure ()
  | none => pure ()

/-- An item after those already read, which are in reverse. If `crowded` is given, it is reported at
each item beyond the most that a function may have. -/
def itemAfter {α : Type} (crowded : Option String) (item : Parse α) (done : List α) :
    Parse (List α) := do
  complainIfCrowded crowded done.length
  return (← item) :: done

/-- Another item, if a comma comes before it. -/
def anotherItem {α : Type} (crowded : Option String) (item : Parse α) (done : List α) :
    Parse (Option (List α)) := do
  match ← accept (· = .comma) with
  | some _ => return some (← itemAfter crowded item done)
  | none => pure none

/-- Items between commas up to a closing token, which is not read. There may be none. -/
def items {α : Type} (closing : TokenKind) (crowded : Option String) (item : Parse α) :
    Parse (List α) := do
  if ← check closing then pure []
  else
    let first ← itemAfter crowded item []
    return (← repeatWhile (anotherItem crowded item) first).reverse

end Parse

end GameScript
