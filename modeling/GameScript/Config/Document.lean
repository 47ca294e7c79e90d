/-! Game configurations as they are written: all items in order, values by their text. -/

namespace GameScript.Config

/-- A value as written. -/
inductive Value where
  | number (text : String)
  /-- The text without its unit. -/
  | duration (text : String)
  /-- The text without its unit. -/
  | percentage (text : String)
  /-- The text with its quotes. -/
  | quoted (text : String)
  | flag (value : Bool)
  | word (text : String)
  | list (items : List Value)
  deriving Repr

/-- The value of a tag. -/
inductive Atom where
  /-- A name or number, which stands for its own text. -/
  | plain (text : String)
  /-- The text with its quotes. -/
  | quoted (text : String)
  deriving Repr, DecidableEq

structure Property where
  key : String
  value : Value
  deriving Repr

/-- An action on a target, with what it takes in parentheses and after `WITH`. -/
structure Step where
  action : String
  target : String
  arguments : List Property
  modifiers : List Property
  deriving Repr

/-- The pipeline that a trigger starts, with the line of the trigger's name. -/
structure Trigger where
  name : String
  line : Nat
  steps : List Step
  deriving Repr

/-- An item of an ability or effect. -/
inductive BehaviourItem where
  | decorator (name : String)
  | trigger (trigger : Trigger)
  | property (property : Property)
  deriving Repr

/-- An ability or effect. -/
structure Behaviour where
  name : String
  items : List BehaviourItem
  deriving Repr

inductive AgentItem where
  | tag (name : String) (atom : Atom)
  | stats (properties : List Property)
  | abilities (abilities : List Behaviour)
  deriving Repr

structure Agent where
  name : String
  items : List AgentItem
  deriving Repr

inductive WeaponItem where
  | tag (name : String) (atom : Atom)
  | property (property : Property)
  /-- A property whose value is a block of properties. -/
  | nested (key : String) (properties : List Property)
  deriving Repr

structure Weapon where
  name : String
  items : List WeaponItem
  deriving Repr

/-- A named block of properties: a team or a site. -/
structure Group where
  name : String
  properties : List Property
  deriving Repr

inductive MapItem where
  | teams (teams : List Group)
  | sites (sites : List Group)
  | callouts (values : List Value)
  deriving Repr

inductive Section where
  | config (properties : List Property)
  | agents (agents : List Agent)
  | weapons (weapons : List Weapon)
  | map (name : String) (items : List MapItem)
  | economy (properties : List Property)
  | statusEffects (effects : List Behaviour)
  | match (properties : List Property)
  deriving Repr

structure Document where
  name : String
  sections : List Section
  deriving Repr

end GameScript.Config
