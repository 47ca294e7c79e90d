import GameScript.Config.Compile
import GameScript.Proofs.Config.Fields

/-! # Game configurations as they are meant

A blueprint is a game configuration before it is written down: names, values and blocks, with the
choices that its author has in spelling them. It stands for a datum, and it is written as a row of
tokens with blanks and comments between them. How sources are read has no part in either. There is
room for so many lists that are open at once, and the values of a blueprint keep to it. -/

namespace GameScript.Config.Blueprint

/-! ## Names, numbers and texts -/

/-- A name, which is no word with a meaning of its own. -/
structure Name where
  first : Char
  rest : List Char
  isStart : Lexeme.isNameStart first := by decide
  isName : rest.all Lexeme.isNameChar := by decide
  notKeyword : ∀ keyword : Keyword, keyword.text.toList ≠ first :: rest := by
    intro keyword
    cases keyword <;> decide

namespace Name

def chars (name : Name) : List Char := name.first :: name.rest

def text (name : Name) : String := String.ofList name.chars

end Name

/-- A number in decimal digits. Without digits behind the point there is no point, and the number is
an integer. -/
structure Numeral where
  negative : Bool
  whole : List Char
  fraction : List Char
  isWhole : whole ≠ [] := by decide
  isNumber : (whole ++ fraction).all Text.isDigit := by decide
  isShort : fraction = [] → whole.length ≤ Json.maxDigits := by decide

namespace Numeral

def chars (numeral : Numeral) : List Char :=
  (if numeral.negative then ['-'] else []) ++ numeral.whole ++
    (if numeral.fraction = [] then [] else '.' :: numeral.fraction)

def datum (numeral : Numeral) : Json :=
  if numeral.fraction = [] then
    .int ((if numeral.negative then -1 else 1) * Text.digitsValue numeral.whole)
  else .number (Decimal.ofFraction numeral.negative numeral.whole numeral.fraction)

end Numeral

/-- What a number counts, if it is no mere number. -/
inductive Measure where
  | seconds
  | percent

namespace Measure

/-- The character behind the number. -/
def mark : Measure → Char
  | .seconds => 's'
  | .percent => '%'

def word : Measure → String
  | .seconds => "seconds"
  | .percent => "percent"

end Measure

/-- The letters behind a backslash that stand for one character. -/
def escapes : List (Char × Char) :=
  [('\\', '\\'), ('"', '"'), ('\'', '\''), ('a', '\x07'), ('b', '\x08'), ('f', '\x0c'), ('n', '\n'),
   ('r', '\r'), ('t', '\t'), ('v', '\x0b')]

/-- The letters behind a backslash with so many hexadecimal digits behind them. -/
def wideEscapes : List (Char × Nat) := [('x', 2), ('u', 4), ('U', 8)]

/-- A character of a text, as it is written between quotes. -/
inductive Glyph where
  | plain (c : Char) (isPlain : c ∉ ['"', '\\', '\n', '\r', Char.ofNat 0])
  | escaped (c letter : Char) (isEscape : (letter, c) ∈ escapes)
  | coded (c letter : Char) (digits : List Char) (isWide : (letter, digits.length) ∈ wideEscapes)
      (isCode : Text.hexValue? digits = some c.toNat)

namespace Glyph

/-- The character that is meant. -/
def char : Glyph → Char
  | .plain c _ | .escaped c _ _ | .coded c _ _ _ _ => c

def spelling : Glyph → List Char
  | .plain c _ => [c]
  | .escaped _ letter _ => ['\\', letter]
  | .coded _ letter digits _ _ => '\\' :: letter :: digits

end Glyph

/-- The text that is meant. -/
def textOf (glyphs : List Glyph) : String := String.ofList (glyphs.map Glyph.char)

/-! ## Tokens -/

/-- A word, a mark, a number or a text, each by itself. -/
inductive Token where
  | word (keyword : Keyword)
  | mark (mark : Mark)
  | name (name : Name)
  | number (numeral : Numeral) (measure : Option Measure)
  | quoted (glyphs : List Glyph)

namespace Token

def chars : Token → List Char
  | .word keyword => keyword.text.toList
  | .mark m => m.text.toList
  | .name n => n.chars
  | .number numeral measure => numeral.chars ++ (measure.map Measure.mark).toList
  | .quoted glyphs => '"' :: (glyphs.flatMap Glyph.spelling ++ ['"'])

end Token

/-- Tokens in brackets. -/
def bracketed (tokens : List Token) : List Token :=
  .mark .openBracket :: (tokens ++ [.mark .closeBracket])

/-- Rows of tokens with commas between them. -/
def commas : List (List Token) → List Token
  | [] => []
  | [row] => row
  | row :: rows => row ++ .mark .comma :: commas rows

/-! ## Values -/

/-- The words for what is so and for what is not. -/
def flags : List (Keyword × Bool) :=
  [(.yes, true), (.upperTrue, true), (.lowerTrue, true), (.no, false), (.upperFalse, false),
   (.lowerFalse, false)]

inductive Value where
  | number (numeral : Numeral) (measure : Option Measure)
  | text (glyphs : List Glyph)
  | flag (keyword : Keyword) (value : Bool) (isFlag : (keyword, value) ∈ flags)
  | word (name : Name)
  | list (items : List Value)

namespace Value

mutual

/-- How many lists are open at once. -/
def depth : Value → Nat
  | .list items => depths items + 1
  | _ => 0
termination_by structural value => value

def depths : List Value → Nat
  | [] => 0
  | value :: rest => max value.depth (depths rest)
termination_by structural values => values

end

mutual

def datum : Value → Json
  | .number numeral none => numeral.datum
  | .number numeral (some measure) =>
    .object [("value", numeral.datum), ("unit", .string measure.word)]
  | .text glyphs => .string (textOf glyphs)
  | .flag _ value _ => .bool value
  | .word name => .string name.text
  | .list items => .array (data items)
termination_by structural value => value

def data : List Value → List Json
  | [] => []
  | value :: rest => value.datum :: data rest
termination_by structural values => values

end

mutual

def tokens : Value → List Token
  | .number numeral measure => [.number numeral measure]
  | .text glyphs => [.quoted glyphs]
  | .flag keyword _ _ => [.word keyword]
  | .word name => [.name name]
  | .list items => bracketed (commas (rows items))
termination_by structural value => value

def rows : List Value → List (List Token)
  | [] => []
  | value :: rest => value.tokens :: rows rest
termination_by structural values => values

end

end Value

variable (room : Nat)

/-- A key with its value. -/
structure Property where
  key : Name
  value : Value
  fits : value.depth ≤ room

namespace Property

variable {room}

def field (property : Property room) : String × Json := (property.key.text, property.value.datum)

def tokens (property : Property room) : List Token :=
  .name property.key :: .mark .has :: property.value.tokens

end Property

variable {room} in
/-- The object of properties. -/
def objectOf (properties : List (Property room)) : Json :=
  .object (Fields.latest (properties.map Property.field))

variable {room} in
/-- A block of properties. -/
def blockOf (properties : List (Property room)) : List Token :=
  bracketed (properties.flatMap Property.tokens)

/-! ## Behaviour -/

/-- An action on a target. Its parameters stand in parentheses or behind `WITH`, or in both. -/
structure Step where
  action : Name
  target : Name
  arguments : Option (List (Property room))
  modifiers : Option (List (Property room))

namespace Step

variable {room}

def datum (step : Step room) : Json :=
  .object [("action", .string step.action.text), ("target", .string step.target.text),
    ("parameters", objectOf (step.arguments.getD [] ++ step.modifiers.getD []))]

def argumentTokens : Option (List (Property room)) → List Token
  | none => []
  | some arguments =>
    .mark .openParen :: (commas (arguments.map Property.tokens) ++ [.mark .closeParen])

def modifierTokens : Option (List (Property room)) → List Token
  | none => []
  | some modifiers => .word .with :: blockOf modifiers

def tokens (step : Step room) : List Token :=
  .name step.action :: .mark .onto :: .name step.target ::
    (argumentTokens step.arguments ++ modifierTokens step.modifiers)

end Step

/-- An item of an ability or effect. A pipeline has at least one step. -/
inductive BehaviourItem (owner : Owner) where
  | decorator (name : Name)
  | property (property : Property room)
  | trigger (name : Name) (isKnown : name.text ∈ owner.triggers) (first : Step room)
      (more : List (Step room))

namespace BehaviourItem

variable {room} {owner : Owner}

def decorator? : BehaviourItem room owner → Option String
  | .decorator name => some name.text
  | _ => none

def property? : BehaviourItem room owner → Option (String × Json)
  | .property p => some p.field
  | _ => none

/-- The name of a trigger with its pipeline. -/
def pipeline? : BehaviourItem room owner → Option (String × Json)
  | .trigger name _ first more => some (name.text, .array ((first :: more).map Step.datum))
  | _ => none

def tokens : BehaviourItem room owner → List Token
  | .decorator name => [.mark .tag, .name name]
  | .property p => p.tokens
  | .trigger name _ first more =>
    .name name :: .mark .then ::
      (first.tokens ++ more.flatMap fun step => .mark .then :: step.tokens)

end BehaviourItem

/-- An ability or effect. -/
structure Behaviour (owner : Owner) where
  name : Name
  items : List (BehaviourItem room owner)

/-- The word that begins an ability or effect. -/
def keywordOf : Owner → Keyword
  | .ability => .ability
  | .effect => .effect

namespace Behaviour

variable {room} {owner : Owner}

/-- The pipelines by trigger. -/
def pipelines (behaviour : Behaviour room owner) : Fields Json :=
  Fields.latest (behaviour.items.filterMap BehaviourItem.pipeline?)

/-- What is cast stands apart from the other events; either is left out if there is none. -/
def datum (behaviour : Behaviour room owner) : Json :=
  let events := behaviour.pipelines.filter (·.1 ≠ "CAST")
  .object
    ([("name", .string behaviour.name.text),
      ("decorators", strings (behaviour.items.filterMap BehaviourItem.decorator?)),
      ("properties",
        .object (Fields.latest (behaviour.items.filterMap BehaviourItem.property?)))] ++
     ((Fields.get? behaviour.pipelines "CAST").map fun cast => ("cast", cast)).toList ++
     (if events.isEmpty then [] else [("events", .object events)]))

def tokens (behaviour : Behaviour room owner) : List Token :=
  .word (keywordOf owner) :: .name behaviour.name ::
    bracketed (behaviour.items.flatMap BehaviourItem.tokens)

end Behaviour

/-! ## Agents -/

/-- The value of a tag. -/
inductive Atom where
  | name (name : Name)
  | number (numeral : Numeral)
  | text (glyphs : List Glyph)

namespace Atom

/-- What the value adds to its tag. -/
def meaning : Atom → String
  | .name n => n.text
  | .number numeral => String.ofList numeral.chars
  | .text glyphs => textOf glyphs

def token : Atom → Token
  | .name n => .name n
  | .number numeral => .number numeral none
  | .text glyphs => .quoted glyphs

end Atom

/-- A tag with its value, as it is listed. -/
def tagOf (name : Name) (atom : Atom) : String := name.text ++ "=" ++ atom.meaning

def tagTokens (name : Name) (atom : Atom) : List Token :=
  [.mark .tag, .name name, .mark .has, atom.token]

inductive AgentItem where
  | tag (name : Name) (atom : Atom)
  | stats (properties : List (Property room))
  | abilities (abilities : List (Behaviour room .ability))

namespace AgentItem

variable {room}

def tag? : AgentItem room → Option String
  | .tag name atom => some (tagOf name atom)
  | _ => none

def fields : AgentItem room → Fields Json
  | .stats properties => properties.map Property.field
  | _ => []

def behaviours : AgentItem room → List Json
  | .abilities behaviours => behaviours.map Behaviour.datum
  | _ => []

def tokens : AgentItem room → List Token
  | .tag name atom => tagTokens name atom
  | .stats properties => .word .stats :: blockOf properties
  | .abilities behaviours => .word .abilities :: bracketed (behaviours.flatMap Behaviour.tokens)

end AgentItem

structure Agent where
  name : Name
  items : List (AgentItem room)

namespace Agent

variable {room}

def datum (agent : Agent room) : Json :=
  .object [("name", .string agent.name.text),
    ("decorators", strings (agent.items.filterMap AgentItem.tag?)),
    ("stats", .object (Fields.latest (agent.items.flatMap AgentItem.fields))),
    ("abilities", .array (agent.items.flatMap AgentItem.behaviours))]

def tokens (agent : Agent room) : List Token :=
  .word .agent :: .name agent.name :: bracketed (agent.items.flatMap AgentItem.tokens)

end Agent

/-! ## Weapons -/

inductive WeaponItem where
  | tag (name : Name) (atom : Atom)
  | property (property : Property room)
  | nested (key : Name) (properties : List (Property room))

namespace WeaponItem

variable {room}

def tag? : WeaponItem room → Option String
  | .tag name atom => some (tagOf name atom)
  | _ => none

def field? : WeaponItem room → Option (String × Json)
  | .tag _ _ => none
  | .property p => some p.field
  | .nested key properties => some (key.text, objectOf properties)

def tokens : WeaponItem room → List Token
  | .tag name atom => tagTokens name atom
  | .property p => p.tokens
  | .nested key properties => .name key :: blockOf properties

end WeaponItem

structure Weapon where
  name : Name
  items : List (WeaponItem room)

namespace Weapon

variable {room}

def datum (weapon : Weapon room) : Json :=
  .object [("name", .string weapon.name.text),
    ("decorators", strings (weapon.items.filterMap WeaponItem.tag?)),
    ("properties", .object (Fields.latest (weapon.items.filterMap WeaponItem.field?)))]

def tokens (weapon : Weapon room) : List Token :=
  .word .weapon :: .name weapon.name :: bracketed (weapon.items.flatMap WeaponItem.tokens)

end Weapon

/-! ## Maps -/

/-- A team or a site. -/
structure Group where
  name : Name
  properties : List (Property room)

namespace Group

variable {room}

def datum (group : Group room) : Json :=
  .object [("name", .string group.name.text), ("properties", objectOf group.properties)]

def tokens (keyword : Keyword) (group : Group room) : List Token :=
  .word keyword :: .name group.name :: blockOf group.properties

end Group

/-- An item of a map. The callouts are a list themselves, so their values have less room. -/
inductive MapItem where
  | teams (groups : List (Group room))
  | sites (groups : List (Group room))
  | callouts (values : List Value) (fits : ∀ value ∈ values, value.depth < room)

namespace MapItem

variable {room}

def teamData : MapItem room → List Json
  | .teams groups => groups.map Group.datum
  | _ => []

def siteData : MapItem room → List Json
  | .sites groups => groups.map Group.datum
  | _ => []

/-- Callouts are texts; of another value its display is one. -/
def calloutData : MapItem room → List Json
  | .callouts values _ => values.map (.string ·.datum.displayBare)
  | _ => []

def tokens : MapItem room → List Token
  | .teams groups => .word .teams :: bracketed (groups.flatMap (Group.tokens .team))
  | .sites groups => .word .sites :: bracketed (groups.flatMap (Group.tokens .site))
  | .callouts values _ =>
    .word .callouts :: .mark .has :: bracketed (commas (values.map Value.tokens))

end MapItem

/-! ## Games -/

inductive Section where
  | config (properties : List (Property room))
  | agents (agents : List (Agent room))
  | weapons (weapons : List (Weapon room))
  | map (name : Name) (items : List (MapItem room))
  | economy (properties : List (Property room))
  | statusEffects (effects : List (Behaviour room .effect))
  | match (properties : List (Property room))

namespace Section

variable {room}

/-- The key under which a section of a kind is listed. -/
def kind : Section room → String
  | .config _ => "config"
  | .agents _ => "agents"
  | .weapons _ => "weapons"
  | .map _ _ => "map"
  | .economy _ => "economy"
  | .statusEffects _ => "status_effects"
  | .match _ => "match"

def datum : Section room → Json
  | .config properties | .economy properties | .match properties => objectOf properties
  | .agents blocks => .array (blocks.map Agent.datum)
  | .weapons blocks => .array (blocks.map Weapon.datum)
  | .statusEffects blocks => .array (blocks.map Behaviour.datum)
  | .map name items =>
    .object [("name", .string name.text), ("teams", .array (items.flatMap MapItem.teamData)),
      ("sites", .array (items.flatMap MapItem.siteData)),
      ("callouts", .array (items.flatMap MapItem.calloutData))]

def tokens : Section room → List Token
  | .config properties => .word .config :: blockOf properties
  | .economy properties => .word .economy :: blockOf properties
  | .match properties => .word .match :: blockOf properties
  | .agents blocks => .word .agents :: bracketed (blocks.flatMap Agent.tokens)
  | .weapons blocks => .word .weapons :: bracketed (blocks.flatMap Weapon.tokens)
  | .statusEffects blocks => .word .statusEffects :: bracketed (blocks.flatMap Behaviour.tokens)
  | .map name items => .word .map :: .name name :: bracketed (items.flatMap MapItem.tokens)

end Section

/-- The kinds of section, in the order in which they are listed. -/
def kinds : List String :=
  ["config", "agents", "weapons", "map", "economy", "status_effects", "match"]

/-- A whole game. -/
structure Document where
  name : Name
  sections : List (Section room)

namespace Document

variable {room}

/-- Every kind of section that there is, with the last section of it. -/
def datum (document : Document room) : Json :=
  .object (("game_name", .string document.name.text) :: kinds.filterMap fun kind =>
    (document.sections.reverse.find? (·.kind = kind)).map fun part => (kind, part.datum))

def tokens (document : Document room) : List Token :=
  .word .game :: .name document.name :: bracketed (document.sections.flatMap Section.tokens)

end Document

/-! ## Blanks and comments -/

/-- The signs that begin a comment. -/
def openings : List (List Char) := [['#'], ['/', '/']]

/-- Blanks and comments, each of which takes the end of its line. -/
inductive Spacing : List Char → Prop
  | nil : Spacing []
  | blank {c : Char} {rest : List Char} (hc : Lexeme.isBlank c) (hrest : Spacing rest) :
      Spacing (c :: rest)
  | comment {opening body rest : List Char} (hopening : opening ∈ openings) (hbody : '\n' ∉ body)
      (hrest : Spacing rest) : Spacing (opening ++ (body ++ '\n' :: rest))

/-- What may stand behind the last token: a comment needs no end of its line there. -/
inductive Ending : List Char → Prop
  | spacing {text : List Char} (h : Spacing text) : Ending text
  | comment {text opening body : List Char} (h : Spacing text) (hopening : opening ∈ openings)
      (hbody : '\n' ∉ body) : Ending (text ++ (opening ++ body))

/-- The source behind a token, with the tokens in it. Something stands between any two of them. -/
inductive Following : List Token → List Char → Prop
  | ending {text : List Char} (h : Ending text) : Following [] text
  | token {gap rest : List Char} {token : Token} {tokens : List Token} (hgap : Spacing gap)
      (hne : gap ≠ []) (hrest : Following tokens rest) :
      Following (token :: tokens) (gap ++ (token.chars ++ rest))

/-- A source that is written with these tokens. -/
inductive Written : List Token → List Char → Prop
  | source {gap rest : List Char} {token : Token} {tokens : List Token} (hgap : Spacing gap)
      (hrest : Following tokens rest) : Written (token :: tokens) (gap ++ (token.chars ++ rest))

end GameScript.Config.Blueprint
