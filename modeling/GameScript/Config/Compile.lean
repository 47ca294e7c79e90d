import GameScript.Config.Literal
import GameScript.Config.Parser
import GameScript.Json.Writer
import GameScript.Limits
import GameScript.Text.Blank

/-! The data that a game configuration stands for.

Within a block, items of each kind go to a place of their own, in order. Of properties with one key
the last value counts, at the place of the first. -/

namespace GameScript.Config

/-! ## Values and properties -/

/-- A number with a unit. -/
def quantity (text unit : String) : Except Error Json := do
  return .object [("value", ← numberValue text), ("unit", .string unit)]

mutual

/-- The datum of a value in which at most `room` lists are open at once. -/
def Value.toJson (room : Nat) : Value → Except Error Json
  | .number text => numberValue text
  | .duration text => quantity text "seconds"
  | .percentage text => quantity text "percent"
  | .quoted text => return .string (← quotedValue text)
  | .flag value => pure (.bool value)
  | .word text => pure (.string text)
  | .list items =>
    if room = 0 then throw .tooDeep else return .array (← valuesToJson (room - 1) items)
termination_by structural value => value

def valuesToJson (room : Nat) : List Value → Except Error (List Json)
  | [] => pure []
  | value :: rest => return (← value.toJson room) :: (← valuesToJson room rest)
termination_by structural values => values

end

def Property.toField (room : Nat) (property : Property) : Except Error (String × Json) := do
  return (property.key, ← property.value.toJson room)

/-- The fields of properties, each key once. -/
def propertyFields (room : Nat) (properties : List Property) : Except Error (Fields Json) := do
  return Fields.putAll [] (← properties.mapM (Property.toField room))

/-- What the value of a tag adds to it. -/
def Atom.text : Atom → Except Error String
  | .plain text => pure text
  | .quoted text => quotedValue text

/-- A tag with its value. -/
def tagText (name : String) (atom : Atom) : Except Error String := do
  return name ++ "=" ++ (← atom.text)

def strings (texts : List String) : Json := .array (texts.map .string)

/-! ## Behaviour -/

/-- The parameters of a step come from its arguments and its modifiers alike. -/
def Step.toJson (room : Nat) (step : Step) : Except Error Json := do
  let arguments ← propertyFields room step.arguments
  let modifiers ← propertyFields room step.modifiers
  return .object [("action", .string step.action), ("target", .string step.target),
    ("parameters", .object (Fields.putAll arguments modifiers))]

/-- An item of an ability or effect, with its values. -/
inductive CompiledItem where
  | decorator (name : String)
  | property (key : String) (value : Json)
  | trigger (name : String) (line : Nat) (pipeline : Json)

def BehaviourItem.compile (room : Nat) : BehaviourItem → Except Error CompiledItem
  | .decorator name => pure (.decorator name)
  | .property p => return .property p.key (← p.value.toJson room)
  | .trigger t => return .trigger t.name t.line (.array (← t.steps.mapM (Step.toJson room)))

/-- The triggers that abilities and effects react to. -/
def Owner.triggers : Owner → List String
  | .ability => ["CAST", "ON_KILL", "ON_APPLY", "ON_TICK", "ON_EXPIRE"]
  | .effect => ["ON_APPLY", "ON_TICK", "ON_EXPIRE"]

/-- The pipelines by trigger. The first trigger that does not exist is an error. -/
def triggerFields (owner : Owner) (items : List CompiledItem) : Except Error (Fields Json) :=
  items.foldlM (fun fields item =>
    match item with
    | .trigger name line pipeline =>
      if name ∈ owner.triggers then pure (Fields.put fields name pipeline)
      else throw (.unknownTrigger owner name line)
    | _ => pure fields) []

/-- The object of an ability or effect. What is cast stands apart from the other events. -/
def Behaviour.toJson (room : Nat) (owner : Owner) (behaviour : Behaviour) : Except Error Json := do
  let items ← behaviour.items.mapM (BehaviourItem.compile room)
  let triggers ← triggerFields owner items
  let decorators := items.filterMap fun
    | .decorator name => some name
    | _ => none
  let properties := items.filterMap fun
    | .property key value => some (key, value)
    | _ => none
  let events := triggers.filter (·.1 ≠ "CAST")
  return .object
    ([("name", .string behaviour.name), ("decorators", strings decorators),
      ("properties", .object (Fields.putAll [] properties))] ++
     ((Fields.get? triggers "CAST").map fun cast => ("cast", cast)).toList ++
     (if events.isEmpty then [] else [("events", .object events)]))

/-! ## Agents, weapons and groups -/

/-- What the items of an agent gather. -/
structure AgentParts where
  decorators : List String := []
  stats : Fields Json := []
  abilities : List Json := []

def AgentParts.add (room : Nat) (parts : AgentParts) : AgentItem → Except Error AgentParts
  | .tag name atom => return { parts with decorators := parts.decorators ++ [← tagText name atom] }
  | .stats properties =>
    return { parts with stats := Fields.putAll parts.stats (← propertyFields room properties) }
  | .abilities abilities =>
    return { parts with
      abilities := parts.abilities ++ (← abilities.mapM (Behaviour.toJson room .ability)) }

def Agent.toJson (room : Nat) (agent : Agent) : Except Error Json := do
  let parts ← agent.items.foldlM (AgentParts.add room) {}
  return .object [("name", .string agent.name), ("decorators", strings parts.decorators),
    ("stats", .object parts.stats), ("abilities", .array parts.abilities)]

/-- What the items of a weapon gather. -/
structure WeaponParts where
  decorators : List String := []
  properties : Fields Json := []

def WeaponParts.add (room : Nat) (parts : WeaponParts) : WeaponItem → Except Error WeaponParts
  | .tag name atom => return { parts with decorators := parts.decorators ++ [← tagText name atom] }
  | .property property =>
    return { parts with
      properties := Fields.put parts.properties property.key (← property.value.toJson room) }
  | .nested key properties =>
    return { parts with
      properties := Fields.put parts.properties key (.object (← propertyFields room properties)) }

def Weapon.toJson (room : Nat) (weapon : Weapon) : Except Error Json := do
  let parts ← weapon.items.foldlM (WeaponParts.add room) {}
  return .object [("name", .string weapon.name), ("decorators", strings parts.decorators),
    ("properties", .object parts.properties)]

def Group.toJson (room : Nat) (group : Group) : Except Error Json := do
  return .object [("name", .string group.name),
    ("properties", .object (← propertyFields room group.properties))]

/-! ## Maps -/

/-- What the items of a map gather. -/
structure MapParts where
  teams : List Json := []
  sites : List Json := []
  callouts : List Json := []

/-- Callouts are texts; other values are taken as they are displayed. -/
def MapParts.add (room : Nat) (parts : MapParts) : MapItem → Except Error MapParts
  | .teams teams => return { parts with teams := parts.teams ++ (← teams.mapM (Group.toJson room)) }
  | .sites sites => return { parts with sites := parts.sites ++ (← sites.mapM (Group.toJson room)) }
  | .callouts values =>
    return { parts with
      callouts := parts.callouts ++ (← valuesToJson (room - 1) values).map (.string ·.displayBare) }

/-! ## Sections -/

namespace Section

/-- The key of a section's kind. -/
def key : Section → String
  | .config _ => "config"
  | .agents _ => "agents"
  | .weapons _ => "weapons"
  | .map _ _ => "map"
  | .economy _ => "economy"
  | .statusEffects _ => "status_effects"
  | .match _ => "match"

def toJson (room : Nat) : Section → Except Error Json
  | .config properties | .economy properties | .match properties =>
    return .object (← propertyFields room properties)
  | .agents blocks => return .array (← blocks.mapM (Agent.toJson room))
  | .weapons blocks => return .array (← blocks.mapM (Weapon.toJson room))
  | .statusEffects blocks => return .array (← blocks.mapM (Behaviour.toJson room .effect))
  | .map name items => do
    let parts ← items.foldlM (MapParts.add room) {}
    return .object [("name", .string name), ("teams", .array parts.teams),
      ("sites", .array parts.sites), ("callouts", .array parts.callouts)]

end Section

/-- The kinds of section in the order in which they are written, whatever order the source has. -/
def sectionKeys : List String :=
  ["config", "agents", "weapons", "map", "economy", "status_effects", "match"]

/-- The object of a game, from its name and its sections' keys and data. Of sections of one kind the
last one counts. -/
def gameObject (name : String) (sections : Fields Json) : Json :=
  .object (("game_name", .string name) ::
    sectionKeys.filterMap fun key => (Fields.get? sections.reverse key).map fun datum => (key, datum))

/-- The data of a document. -/
def Document.toJson (room : Nat) (document : Document) : Except Error Json := do
  let sections ← document.sections.mapM fun part => do return (part.key, ← part.toJson room)
  return gameObject document.name sections

/-! ## Sources -/

/-- A compiled game: its data, its name and how many sections its source has. -/
structure Game where
  name : String
  sections : Nat
  datum : Json

/-- Compiles a source. An error of the grammar counts before any other. -/
def compile (limits : Limits) (source : String) : Except Error Game := do
  let document ← Document.parse source
  return ⟨document.name, document.sections.length, ← document.toJson limits.listing⟩

/-- The text of a game's data. -/
def Game.text (game : Game) : String := game.datum.indented true 0

/-- Is a source a game configuration? The first word of its first line that is neither blank nor a
comment decides. -/
def isGame (source : String) : Bool :=
  let isCode (line : List Char) : Bool :=
    !(line.isEmpty || ['/', '/'].isPrefixOf line || ['#'].isPrefixOf line)
  match ((Text.lines source.toList).map Text.strip).find? isCode with
  | some line => Text.firstWord line = "GAME".toList
  | none => false

end GameScript.Config
