/-! The words and marks of game configurations, and which of them may stand where.

A word is read with regard to its place: what may follow decides whether it is a keyword, a name or
the start of one. The sets below list what may follow at each kind of place. -/

namespace GameScript.Config

/-- Words with a meaning of their own. -/
inductive Keyword where
  | game | config | economy | match | agents | agent | stats | abilities | ability
  | weapons | weapon | map | teams | team | sites | site | callouts | statusEffects | effect
  | with | yes | upperTrue | lowerTrue | no | upperFalse | lowerFalse
  deriving Repr, DecidableEq

namespace Keyword

def text : Keyword → String
  | .game => "GAME"
  | .config => "CONFIG"
  | .economy => "ECONOMY"
  | .match => "MATCH"
  | .agents => "AGENTS"
  | .agent => "AGENT"
  | .stats => "STATS"
  | .abilities => "ABILITIES"
  | .ability => "ABILITY"
  | .weapons => "WEAPONS"
  | .weapon => "WEAPON"
  | .map => "MAP"
  | .teams => "TEAMS"
  | .team => "TEAM"
  | .sites => "SITES"
  | .site => "SITE"
  | .callouts => "CALLOUTS"
  | .statusEffects => "STATUS_EFFECTS"
  | .effect => "EFFECT"
  | .with => "WITH"
  | .yes => "YES"
  | .upperTrue => "TRUE"
  | .lowerTrue => "true"
  | .no => "NO"
  | .upperFalse => "FALSE"
  | .lowerFalse => "false"

end Keyword

/-- Marks between words. -/
inductive Mark where
  | openBracket | closeBracket | openParen | closeParen | comma | tag | has | then | onto
  deriving Repr, DecidableEq

namespace Mark

def text : Mark → String
  | .openBracket => "["
  | .closeBracket => "]"
  | .openParen => "("
  | .closeParen => ")"
  | .comma => ","
  | .tag => "@"
  | .has => "::"
  | .then => "=>"
  | .onto => "->"

def all : List Mark :=
  [.openBracket, .closeBracket, .openParen, .closeParen, .comma, .tag, .has, .then, .onto]

end Mark

/-- What a lexeme is. -/
inductive Terminal where
  | name
  | number
  /-- A number of seconds. -/
  | duration
  /-- A number of hundredths. -/
  | percentage
  /-- A text in double quotes. -/
  | quoted
  | word (keyword : Keyword)
  | mark (mark : Mark)
  deriving Repr, DecidableEq

/-- What may stand at a place. -/
abbrev Expected := List Terminal

namespace Expected

def openBracket : Terminal := .mark .openBracket

def closeBracket : Terminal := .mark .closeBracket

def names : Expected := [.name]

def opening : Expected := [openBracket]

def has : Expected := [.mark .has]

/-- The words that begin sections. -/
def sections : Expected :=
  [.word .config, .word .agents, .word .weapons, .word .map, .word .economy, .word .statusEffects,
   .word .match, closeBracket]

/-- Blocks of one kind, each beginning with a word. -/
def blocks (keyword : Keyword) : Expected := [.word keyword, closeBracket]

/-- Properties, as in most blocks. -/
def properties : Expected := [.name, closeBracket]

/-- The items of an agent. -/
def agentItems : Expected := [.mark .tag, .word .stats, .word .abilities, closeBracket]

/-- The items of an ability, an effect or a weapon. -/
def taggedItems : Expected := [.mark .tag, .name, closeBracket]

/-- The items of a map. -/
def mapItems : Expected := [.word .teams, .word .sites, .word .callouts, closeBracket]

/-- The start of a value. -/
def values : Expected :=
  [.number, .duration, .percentage, .quoted, .word .yes, .word .upperTrue, .word .lowerTrue,
   .word .no, .word .upperFalse, .word .lowerFalse, .name, openBracket]

/-- The start of an item of a list of values, or its end. -/
def listItems : Expected := closeBracket :: values

/-- What may follow a value, wherever values stand. -/
def afterValue : Expected :=
  [.mark .closeParen, .mark .comma, .mark .tag, .name, closeBracket]

/-- What may follow a list of values, which can also stand among the items of a map. -/
def afterList : Expected := [.word .teams, .word .sites, .word .callouts] ++ afterValue

/-- The value of a tag. -/
def atoms : Expected := [.name, .number, .quoted]

/-- What may follow the value of a tag, in an agent or in a weapon. -/
def afterAtom : Expected :=
  [.mark .tag, .word .stats, .word .abilities, .name, closeBracket]

/-- What may follow a step of a pipeline. -/
def afterStep : Expected := [.mark .then, .mark .tag, .name, closeBracket]

/-- What may follow the arguments of a step. -/
def afterArguments : Expected := .word .with :: afterStep

/-- What may follow the target of a step. -/
def afterTarget : Expected := .mark .openParen :: afterArguments

/-- Everything, as where a lexeme is read only to report it. -/
def anything : Expected :=
  [.name, .number, .duration, .percentage, .quoted] ++ Mark.all.map .mark

end Expected

end GameScript.Config
