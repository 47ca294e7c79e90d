import GameScript.Proofs.Config.Failures
import GameScript.Proofs.Config.Fields
import Mathlib.Data.List.Forall2

/-! # What a document stands for

The parts of a document that have one place in the data are gathered wherever they stand: the items of
each kind in a block, in order. What a block stands for is told from these alone. A document compiles
exactly to what it stands for. -/

namespace GameScript.Config

/-! ## Items by kind -/

/-- What a step takes, in parentheses or behind `WITH`. -/
def Step.parameters (step : Step) : List Property := step.arguments ++ step.modifiers

def Behaviour.decorators (behaviour : Behaviour) : List String :=
  behaviour.items.filterMap fun
    | .decorator name => some name
    | _ => none

def Behaviour.properties (behaviour : Behaviour) : List Property :=
  behaviour.items.filterMap fun
    | .property p => some p
    | _ => none

def AgentItem.tags : AgentItem → List (String × Atom)
  | .tag name atom => [(name, atom)]
  | _ => []

def AgentItem.properties : AgentItem → List Property
  | .stats properties => properties
  | _ => []

def Agent.tags (agent : Agent) : List (String × Atom) := agent.items.flatMap AgentItem.tags

/-- The properties of all blocks of stats. -/
def Agent.stats (agent : Agent) : List Property := agent.items.flatMap AgentItem.properties

/-- The abilities of all blocks of them. -/
def Agent.abilities (agent : Agent) : List Behaviour := agent.items.flatMap AgentItem.behaviours

def WeaponItem.tags : WeaponItem → List (String × Atom)
  | .tag name atom => [(name, atom)]
  | _ => []

/-- The item, if it is a property, be that a value or a block. -/
def WeaponItem.properties : WeaponItem → List WeaponItem
  | .tag _ _ => []
  | item => [item]

def Weapon.tags (weapon : Weapon) : List (String × Atom) := weapon.items.flatMap WeaponItem.tags

def Weapon.properties (weapon : Weapon) : List WeaponItem :=
  weapon.items.flatMap WeaponItem.properties

def MapItem.teamGroups : MapItem → List Group
  | .teams groups => groups
  | _ => []

def MapItem.siteGroups : MapItem → List Group
  | .sites groups => groups
  | _ => []

def MapItem.calloutValues : MapItem → List Value
  | .callouts values => values
  | _ => []

/-! ## Data -/

variable (room : Nat)

/-- Properties stand for their fields, each key once. -/
def PropertiesDenote (properties : List Property) (fields : Fields Json) : Prop :=
  ∃ written, List.Forall₂ (fun property field => property.toField room = .ok field) properties
    written ∧ Fields.Gathers written fields

inductive Step.Denotes (step : Step) : Json → Prop
  | object {parameters : Fields Json} (hparameters : PropertiesDenote room step.parameters parameters) :
      Denotes step (.object [("action", .string step.action), ("target", .string step.target),
        ("parameters", .object parameters)])

/-- A trigger stands for its name with all steps of its pipeline. -/
inductive Trigger.Denotes (trigger : Trigger) : String × Json → Prop
  | pipeline {steps : List Json} (hsteps : List.Forall₂ (Step.Denotes room) trigger.steps steps) :
      Denotes trigger (trigger.name, .array steps)

/-- The object of an ability or effect. Among its triggers, what is cast stands apart from the other
events; either is left out if there is none. -/
def behaviourObject (name : String) (decorators : List String) (properties triggers : Fields Json) :
    Json :=
  let events := triggers.filter (·.1 ≠ "CAST")
  .object
    ([("name", .string name), ("decorators", strings decorators), ("properties", .object properties)] ++
     ((Fields.get? triggers "CAST").map fun cast => ("cast", cast)).toList ++
     (if events.isEmpty then [] else [("events", .object events)]))

/-- An ability or effect stands for an object if all of its triggers exist. -/
inductive Behaviour.Denotes (owner : Owner) (behaviour : Behaviour) : Json → Prop
  | object {properties pipelines triggers : Fields Json}
      (hproperties : PropertiesDenote room behaviour.properties properties)
      (hknown : ∀ trigger ∈ behaviour.triggers, trigger.name ∈ owner.triggers)
      (hpipelines : List.Forall₂ (Trigger.Denotes room) behaviour.triggers pipelines)
      (htriggers : Fields.Gathers pipelines triggers) :
      Denotes owner behaviour
        (behaviourObject behaviour.name behaviour.decorators properties triggers)

/-- Tags stand for their texts. -/
def TagsDenote (tags : List (String × Atom)) (texts : List String) : Prop :=
  List.Forall₂ (fun tag text => tagText tag.1 tag.2 = .ok text) tags texts

inductive Agent.Denotes (agent : Agent) : Json → Prop
  | object {tags : List String} {stats : Fields Json} {abilities : List Json}
      (htags : TagsDenote agent.tags tags) (hstats : PropertiesDenote room agent.stats stats)
      (habilities : List.Forall₂ (Behaviour.Denotes room .ability) agent.abilities abilities) :
      Denotes agent (.object [("name", .string agent.name), ("decorators", strings tags),
        ("stats", .object stats), ("abilities", .array abilities)])

/-- A property of a weapon stands for a field. -/
inductive WeaponItem.Denotes : WeaponItem → String × Json → Prop
  | property {property : Property} {field : String × Json} (h : property.toField room = .ok field) :
      Denotes (.property property) field
  | nested {key : String} {properties : List Property} {fields : Fields Json}
      (h : PropertiesDenote room properties fields) : Denotes (.nested key properties)
        (key, .object fields)

inductive Weapon.Denotes (weapon : Weapon) : Json → Prop
  | object {tags : List String} {written properties : Fields Json}
      (htags : TagsDenote weapon.tags tags)
      (hwritten : List.Forall₂ (WeaponItem.Denotes room) weapon.properties written)
      (hproperties : Fields.Gathers written properties) :
      Denotes weapon (.object [("name", .string weapon.name), ("decorators", strings tags),
        ("properties", .object properties)])

inductive Group.Denotes (group : Group) : Json → Prop
  | object {properties : Fields Json} (h : PropertiesDenote room group.properties properties) :
      Denotes group (.object [("name", .string group.name), ("properties", .object properties)])

/-- The texts of callouts. What is no text stands for its display. -/
def calloutTexts (data : List Json) : List Json := data.map (.string ·.displayBare)

inductive Section.Denotes : Section → Json → Prop
  | config {properties : List Property} {fields : Fields Json}
      (h : PropertiesDenote room properties fields) : Denotes (.config properties) (.object fields)
  | economy {properties : List Property} {fields : Fields Json}
      (h : PropertiesDenote room properties fields) : Denotes (.economy properties) (.object fields)
  | match {properties : List Property} {fields : Fields Json}
      (h : PropertiesDenote room properties fields) : Denotes (.match properties) (.object fields)
  | agents {blocks : List Agent} {data : List Json} (h : List.Forall₂ (Agent.Denotes room) blocks data) :
      Denotes (.agents blocks) (.array data)
  | weapons {blocks : List Weapon} {data : List Json}
      (h : List.Forall₂ (Weapon.Denotes room) blocks data) : Denotes (.weapons blocks) (.array data)
  | statusEffects {blocks : List Behaviour} {data : List Json}
      (h : List.Forall₂ (Behaviour.Denotes room .effect) blocks data) :
      Denotes (.statusEffects blocks) (.array data)
  | map {name : String} {items : List MapItem} {teams sites callouts : List Json}
      (hteams : List.Forall₂ (Group.Denotes room) (items.flatMap MapItem.teamGroups) teams)
      (hsites : List.Forall₂ (Group.Denotes room) (items.flatMap MapItem.siteGroups) sites)
      (hcallouts : List.Forall₂ (fun value datum => value.toJson (room - 1) = .ok datum)
        (items.flatMap MapItem.calloutValues) callouts) :
      Denotes (.map name items) (.object [("name", .string name), ("teams", .array teams),
        ("sites", .array sites), ("callouts", .array (calloutTexts callouts))])

/-- The data of sections, each under the key of its kind. -/
def sectionFields (sections : List Section) (data : List Json) : Fields Json :=
  (sections.map Section.key).zip data

inductive Document.Denotes (document : Document) : Json → Prop
  | game {data : List Json} (h : List.Forall₂ (Section.Denotes room) document.sections data) :
      Denotes document (gameObject document.name (sectionFields document.sections data))

/-! ## Steps that succeed -/

section Success

variable {ε α β γ : Type}

theorem bind_eq_ok_iff {x : Except ε α} {f : α → Except ε β} {b : β} :
    (x >>= f) = .ok b ↔ ∃ a, x = .ok a ∧ f a = .ok b := by
  cases x <;> simp [bind, Except.bind]

theorem pure_eq_ok_iff {a b : α} : (pure a : Except ε α) = .ok b ↔ a = b := by
  simp [pure, Except.pure]

theorem mapM_eq_ok_iff {f : α → Except ε β} {as : List α} {bs : List β} :
    as.mapM f = .ok bs ↔ List.Forall₂ (fun a b => f a = .ok b) as bs := by
  induction as generalizing bs with
  | nil =>
    rw [List.mapM_nil, pure_eq_ok_iff, List.forall₂_nil_left_iff]
    exact eq_comm
  | cons a as ih =>
    simp only [List.mapM_cons, bind_eq_ok_iff, pure_eq_ok_iff, ih, List.forall₂_cons_left_iff]
    constructor
    · rintro ⟨b, hb, bs, hbs, rfl⟩
      exact ⟨b, bs, hb, hbs, rfl⟩
    · rintro ⟨b, bs, hb, hbs, rfl⟩
      exact ⟨b, hb, bs, hbs, rfl⟩

theorem forall₂_iff {R S : α → β → Prop} (h : ∀ a b, R a b ↔ S a b) {as : List α} {bs : List β} :
    List.Forall₂ R as bs ↔ List.Forall₂ S as bs := by
  obtain rfl : R = S := funext fun a => funext fun b => propext (h a b)
  rfl

theorem forall₂_append_left_iff {R : α → β → Prop} {as as' : List α} {bs : List β} :
    List.Forall₂ R (as ++ as') bs ↔
      ∃ first more, List.Forall₂ R as first ∧ List.Forall₂ R as' more ∧ bs = first ++ more := by
  induction as generalizing bs with
  | nil => simp
  | cons a as ih =>
    simp only [List.cons_append, List.forall₂_cons_left_iff, ih]
    constructor
    · rintro ⟨b, _, hb, ⟨first, more, hfirst, hmore, rfl⟩, rfl⟩
      exact ⟨b :: first, more, ⟨b, first, hb, hfirst, rfl⟩, hmore, rfl⟩
    · rintro ⟨_, more, ⟨b, first, hb, hfirst, rfl⟩, hmore, rfl⟩
      exact ⟨b, first ++ more, hb, ⟨first, more, hfirst, hmore, rfl⟩, rfl⟩

theorem exists_of_mem_left {R : α → β → Prop} {as : List α} {bs : List β} (h : List.Forall₂ R as bs)
    {a : α} (ha : a ∈ as) : ∃ b ∈ bs, R a b := by
  induction h with
  | nil => cases ha
  | @cons _ b _ _ hab _ ih =>
    rcases List.mem_cons.mp ha with rfl | ha
    · exact ⟨b, List.mem_cons_self, hab⟩
    · obtain ⟨b', hb', hab'⟩ := ih ha
      exact ⟨b', List.mem_cons_of_mem _ hb', hab'⟩

end Success

/-! ## Properties and steps -/

variable {room} {datum : Json}

theorem propertyFields_eq_ok_iff {properties : List Property} {fields : Fields Json} :
    propertyFields room properties = .ok fields ↔ PropertiesDenote room properties fields := by
  simp only [propertyFields, PropertiesDenote, bind_eq_ok_iff, pure_eq_ok_iff, mapM_eq_ok_iff,
    Fields.gathers_iff]
  exact exists_congr fun written => and_congr_right fun _ => eq_comm

theorem Step.toJson_eq_ok_iff {step : Step} :
    step.toJson room = .ok datum ↔ step.Denotes room datum := by
  have hfields (arguments modifiers : Fields Json) :
      Fields.putAll (Fields.putAll [] arguments) (Fields.putAll [] modifiers) =
        Fields.putAll [] (arguments ++ modifiers) := by
    rw [Fields.putAll_nil modifiers, Fields.putAll_latest, Fields.putAll_append]
  simp only [Step.toJson, propertyFields, bind_eq_ok_iff, pure_eq_ok_iff, mapM_eq_ok_iff]
  constructor
  · rintro ⟨_, ⟨arguments, harguments, rfl⟩, _, ⟨modifiers, hmodifiers, rfl⟩, rfl⟩
    rw [hfields]
    refine .object ⟨arguments ++ modifiers, ?_, Fields.putAll_gathers _⟩
    exact forall₂_append_left_iff.mpr ⟨arguments, modifiers, harguments, hmodifiers, rfl⟩
  · rintro ⟨_, hwritten, hgathers⟩
    obtain ⟨arguments, modifiers, harguments, hmodifiers, rfl⟩ := forall₂_append_left_iff.mp hwritten
    rw [Fields.gathers_iff.mp hgathers, ← hfields]
    exact ⟨_, ⟨arguments, harguments, rfl⟩, _, ⟨modifiers, hmodifiers, rfl⟩, rfl⟩

theorem steps_eq_ok_iff {steps : List Step} {data : List Json} :
    steps.mapM (Step.toJson room) = .ok data ↔ List.Forall₂ (Step.Denotes room) steps data :=
  mapM_eq_ok_iff.trans (forall₂_iff fun _ _ => Step.toJson_eq_ok_iff)

/-! ## Abilities and effects -/

def CompiledItem.decorator? : CompiledItem → Option String
  | .decorator name => some name
  | _ => none

def CompiledItem.field? : CompiledItem → Option (String × Json)
  | .property key value => some (key, value)
  | _ => none

/-- The name of a trigger with its pipeline. -/
def CompiledItem.pipeline? : CompiledItem → Option (String × Json)
  | .trigger name _ pipeline => some (name, pipeline)
  | _ => none

/-- An item and what it is compiled to. -/
inductive BehaviourItem.Compiles (room : Nat) : BehaviourItem → CompiledItem → Prop
  | decorator (name : String) : Compiles room (.decorator name) (.decorator name)
  | property {property : Property} {field : String × Json} (h : property.toField room = .ok field) :
      Compiles room (.property property) (.property field.1 field.2)
  | trigger {trigger : Trigger} {pipeline : String × Json} (h : trigger.Denotes room pipeline) :
      Compiles room (.trigger trigger) (.trigger pipeline.1 trigger.line pipeline.2)

theorem toField_eq_ok_iff {property : Property} {field : String × Json} :
    property.toField room = .ok field ↔
      property.key = field.1 ∧ property.value.toJson room = .ok field.2 := by
  simp only [Property.toField, bind_eq_ok_iff, pure_eq_ok_iff]
  constructor
  · rintro ⟨value, hvalue, rfl⟩
    exact ⟨rfl, hvalue⟩
  · rintro ⟨hkey, hvalue⟩
    exact ⟨_, hvalue, Prod.ext hkey rfl⟩

theorem BehaviourItem.compile_eq_ok_iff {item : BehaviourItem} {compiled : CompiledItem} :
    item.compile room = .ok compiled ↔ item.Compiles room compiled := by
  cases item with
  | decorator name =>
    simp only [BehaviourItem.compile, pure_eq_ok_iff]
    exact ⟨fun h => h ▸ .decorator name, fun h => by cases h; rfl⟩
  | property p =>
    simp only [BehaviourItem.compile, bind_eq_ok_iff, pure_eq_ok_iff]
    constructor
    · rintro ⟨value, hvalue, rfl⟩
      have hfield : p.toField room = .ok (p.key, value) := toField_eq_ok_iff.mpr ⟨rfl, hvalue⟩
      exact .property hfield
    · rintro (_ | hfield)
      obtain ⟨hkey, hvalue⟩ := toField_eq_ok_iff.mp hfield
      exact ⟨_, hvalue, by rw [hkey]⟩
  | trigger t =>
    simp only [BehaviourItem.compile, bind_eq_ok_iff, pure_eq_ok_iff, steps_eq_ok_iff]
    constructor
    · rintro ⟨steps, hsteps, rfl⟩
      exact .trigger (.pipeline hsteps)
    · rintro (_ | _ | ⟨⟨hsteps⟩⟩)
      exact ⟨_, hsteps, rfl⟩

variable {owner : Owner} {behaviour : Behaviour}

theorem compiles_decorators {compiled : List CompiledItem}
    (h : List.Forall₂ (BehaviourItem.Compiles room) behaviour.items compiled) :
    compiled.filterMap CompiledItem.decorator? = behaviour.decorators := by
  unfold Behaviour.decorators
  generalize behaviour.items = items at h
  induction h with
  | nil => rfl
  | cons hitem _ ih =>
    cases hitem with
    | decorator name => exact congrArg (name :: ·) ih
    | property => exact ih
    | trigger => exact ih

/-- Properties and triggers are compiled apart from each other. -/
theorem compiles_iff {fields pipelines : Fields Json} :
    (∃ compiled, List.Forall₂ (BehaviourItem.Compiles room) behaviour.items compiled ∧
      compiled.filterMap CompiledItem.field? = fields ∧
        compiled.filterMap CompiledItem.pipeline? = pipelines) ↔
    List.Forall₂ (fun property field => property.toField room = .ok field) behaviour.properties
        fields ∧
      List.Forall₂ (Trigger.Denotes room) behaviour.triggers pipelines := by
  obtain ⟨name, items⟩ := behaviour
  constructor
  · rintro ⟨compiled, h, rfl, rfl⟩
    dsimp only at h
    induction h with
    | nil => exact ⟨.nil, .nil⟩
    | cons hitem _ ih =>
      cases hitem with
      | decorator => exact ih
      | property h => exact ⟨.cons h ih.1, ih.2⟩
      | trigger h => exact ⟨ih.1, .cons h ih.2⟩
  · rintro ⟨hfields, hpipelines⟩
    induction items generalizing fields pipelines with
    | nil =>
      cases hfields
      cases hpipelines
      exact ⟨[], .nil, rfl, rfl⟩
    | cons item items ih =>
      cases item with
      | decorator name =>
        obtain ⟨compiled, hall, rfl, rfl⟩ := ih hfields hpipelines
        exact ⟨_, .cons (.decorator name) hall, rfl, rfl⟩
      | property p =>
        cases hfields with
        | cons hfield hfields =>
          obtain ⟨compiled, hall, rfl, rfl⟩ := ih hfields hpipelines
          exact ⟨_, .cons (.property hfield) hall, rfl, rfl⟩
      | trigger t =>
        cases hpipelines with
        | cons hpipeline hpipelines =>
          obtain ⟨compiled, hall, rfl, rfl⟩ := ih hfields hpipelines
          exact ⟨_, .cons (.trigger hpipeline) hall, rfl, rfl⟩

theorem triggerFields_eq_ok_iff {compiled : List CompiledItem} {triggers : Fields Json} :
    triggerFields owner compiled = .ok triggers ↔
      (∀ name ∈ Fields.names (compiled.filterMap CompiledItem.pipeline?), name ∈ owner.triggers) ∧
        triggers = Fields.putAll [] (compiled.filterMap CompiledItem.pipeline?) := by
  unfold triggerFields
  generalize ([] : Fields Json) = fields
  induction compiled generalizing fields with
  | nil =>
    rw [List.foldlM_nil, pure_eq_ok_iff]
    simp [Fields.names, Fields.putAll, eq_comm]
  | cons item compiled ih =>
    cases item with
    | decorator name => exact ih fields
    | property key value => exact ih fields
    | trigger name line pipeline =>
      simp only [List.foldlM_cons]
      by_cases hname : name ∈ owner.triggers
      · rw [if_pos hname]
        refine (ih (Fields.put fields name pipeline)).trans (and_congr_left fun _ => ?_)
        simp [Fields.names, CompiledItem.pipeline?, hname]
      · rw [if_neg hname]
        simp [Fields.names, CompiledItem.pipeline?, hname, throw, throwThe, MonadExceptOf.throw, bind,
          Except.bind]

theorem Trigger.Denotes.names {triggers : List Trigger} {pipelines : Fields Json}
    (h : List.Forall₂ (Trigger.Denotes room) triggers pipelines) :
    Fields.names pipelines = triggers.map (·.name) := by
  induction h with
  | nil => rfl
  | cons hpipeline _ ih =>
    cases hpipeline
    exact congrArg (_ :: ·) ih

theorem Behaviour.toJson_eq_ok_iff :
    behaviour.toJson room owner = .ok datum ↔ behaviour.Denotes room owner datum := by
  have hcompile {compiled : List CompiledItem} :
      behaviour.items.mapM (BehaviourItem.compile room) = .ok compiled ↔
        List.Forall₂ (BehaviourItem.Compiles room) behaviour.items compiled :=
    mapM_eq_ok_iff.trans (forall₂_iff fun _ _ => BehaviourItem.compile_eq_ok_iff)
  simp only [Behaviour.toJson, bind_eq_ok_iff, hcompile, triggerFields_eq_ok_iff, pure_eq_ok_iff]
  constructor
  · rintro ⟨compiled, hall, _, ⟨hknown, rfl⟩, rfl⟩
    obtain ⟨hfields, hpipelines⟩ := compiles_iff.mp ⟨compiled, hall, rfl, rfl⟩
    rw [Trigger.Denotes.names hpipelines] at hknown
    have hobject := Behaviour.Denotes.object ⟨_, hfields, Fields.putAll_gathers _⟩
      (List.forall_mem_map.mp hknown) hpipelines (Fields.putAll_gathers _)
    rw [← compiles_decorators hall] at hobject
    exact hobject
  · rintro ⟨⟨fields, hfields, hgathers⟩, hknown, hpipelines, htriggers⟩
    obtain ⟨compiled, hall, rfl, rfl⟩ := compiles_iff.mpr ⟨hfields, hpipelines⟩
    refine ⟨compiled, hall, _, ⟨?_, rfl⟩, ?_⟩
    · rw [Trigger.Denotes.names hpipelines]
      exact List.forall_mem_map.mpr hknown
    · rw [Fields.gathers_iff.mp hgathers, Fields.gathers_iff.mp htriggers, ← compiles_decorators hall]
      rfl

theorem behaviours_eq_ok_iff {blocks : List Behaviour} {data : List Json} :
    blocks.mapM (Behaviour.toJson room owner) = .ok data ↔
      List.Forall₂ (Behaviour.Denotes room owner) blocks data :=
  mapM_eq_ok_iff.trans (forall₂_iff fun _ _ => Behaviour.toJson_eq_ok_iff)

/-! ## Agents -/

theorem AgentParts.add_eq_ok_iff {parts parts' : AgentParts} {item : AgentItem} :
    parts.add room item = .ok parts' ↔ ∃ tags written abilities, TagsDenote item.tags tags ∧
      List.Forall₂ (fun property field => property.toField room = .ok field) item.properties written ∧
      List.Forall₂ (Behaviour.Denotes room .ability) item.behaviours abilities ∧
      parts' = ⟨parts.decorators ++ tags, Fields.putAll parts.stats written,
        parts.abilities ++ abilities⟩ := by
  cases item with
  | tag name atom =>
    simp only [AgentParts.add, bind_eq_ok_iff, pure_eq_ok_iff]
    constructor
    · rintro ⟨text, htext, rfl⟩
      exact ⟨[text], [], [], .cons htext .nil, .nil, .nil, by simp [Fields.putAll]⟩
    · rintro ⟨_, _, _, htags, ⟨⟩, ⟨⟩, rfl⟩
      obtain ⟨text, _, htext, ⟨⟩, rfl⟩ := List.forall₂_cons_left_iff.mp htags
      exact ⟨text, htext, by simp [Fields.putAll]⟩
  | stats properties =>
    simp only [AgentParts.add, bind_eq_ok_iff, pure_eq_ok_iff, propertyFields_eq_ok_iff]
    constructor
    · rintro ⟨_, ⟨written, hwritten, hfields⟩, rfl⟩
      refine ⟨[], written, [], .nil, hwritten, .nil, ?_⟩
      simp [Fields.gathers_iff.mp hfields, Fields.putAll_nil, Fields.putAll_latest]
    · rintro ⟨_, written, _, ⟨⟩, hwritten, ⟨⟩, rfl⟩
      refine ⟨_, ⟨written, hwritten, Fields.putAll_gathers written⟩, ?_⟩
      simp [Fields.putAll_nil, Fields.putAll_latest]
  | abilities blocks =>
    simp only [AgentParts.add, bind_eq_ok_iff, pure_eq_ok_iff, behaviours_eq_ok_iff]
    constructor
    · rintro ⟨abilities, habilities, rfl⟩
      exact ⟨[], [], abilities, .nil, .nil, habilities, by simp [Fields.putAll]⟩
    · rintro ⟨_, _, abilities, ⟨⟩, ⟨⟩, habilities, rfl⟩
      exact ⟨abilities, habilities, by simp [Fields.putAll]⟩

theorem AgentParts.addAll_eq_ok_iff {parts parts' : AgentParts} {items : List AgentItem} :
    items.foldlM (AgentParts.add room) parts = .ok parts' ↔
      ∃ tags written abilities, TagsDenote (items.flatMap AgentItem.tags) tags ∧
        List.Forall₂ (fun property field => property.toField room = .ok field)
          (items.flatMap AgentItem.properties) written ∧
        List.Forall₂ (Behaviour.Denotes room .ability) (items.flatMap AgentItem.behaviours) abilities ∧
        parts' = ⟨parts.decorators ++ tags, Fields.putAll parts.stats written,
          parts.abilities ++ abilities⟩ := by
  induction items generalizing parts with
  | nil =>
    rw [List.foldlM_nil, pure_eq_ok_iff]
    simp [TagsDenote, Fields.putAll, eq_comm]
  | cons item items ih =>
    simp only [List.foldlM_cons, bind_eq_ok_iff, AgentParts.add_eq_ok_iff, ih, List.flatMap_cons,
      TagsDenote, forall₂_append_left_iff]
    constructor
    · rintro ⟨_, ⟨tags, written, abilities, htags, hwritten, habilities, rfl⟩, tags', written',
        abilities', htags', hwritten', habilities', rfl⟩
      exact ⟨tags ++ tags', written ++ written', abilities ++ abilities', ⟨_, _, htags, htags', rfl⟩,
        ⟨_, _, hwritten, hwritten', rfl⟩, ⟨_, _, habilities, habilities', rfl⟩,
        by simp [Fields.putAll_append]⟩
    · rintro ⟨_, _, _, ⟨tags, tags', htags, htags', rfl⟩, ⟨written, written', hwritten, hwritten', rfl⟩,
        ⟨abilities, abilities', habilities, habilities', rfl⟩, rfl⟩
      exact ⟨_, ⟨tags, written, abilities, htags, hwritten, habilities, rfl⟩, tags', written',
        abilities', htags', hwritten', habilities', by simp [Fields.putAll_append]⟩

theorem Agent.toJson_eq_ok_iff {agent : Agent} :
    agent.toJson room = .ok datum ↔ agent.Denotes room datum := by
  simp only [Agent.toJson, bind_eq_ok_iff, pure_eq_ok_iff, AgentParts.addAll_eq_ok_iff]
  constructor
  · rintro ⟨_, ⟨tags, written, abilities, htags, hwritten, habilities, rfl⟩, rfl⟩
    exact .object htags ⟨written, hwritten, Fields.putAll_gathers written⟩ habilities
  · rintro ⟨htags, ⟨written, hwritten, hgathers⟩, habilities⟩
    refine ⟨_, ⟨_, written, _, htags, hwritten, habilities, rfl⟩, ?_⟩
    rw [Fields.gathers_iff.mp hgathers]
    rfl

/-! ## Weapons and groups -/

theorem WeaponParts.add_eq_ok_iff {parts parts' : WeaponParts} {item : WeaponItem} :
    parts.add room item = .ok parts' ↔ ∃ tags written, TagsDenote item.tags tags ∧
      List.Forall₂ (WeaponItem.Denotes room) item.properties written ∧
      parts' = ⟨parts.decorators ++ tags, Fields.putAll parts.properties written⟩ := by
  cases item with
  | tag name atom =>
    simp only [WeaponParts.add, bind_eq_ok_iff, pure_eq_ok_iff]
    constructor
    · rintro ⟨text, htext, rfl⟩
      exact ⟨[text], [], .cons htext .nil, .nil, by simp [Fields.putAll]⟩
    · rintro ⟨_, _, htags, ⟨⟩, rfl⟩
      obtain ⟨text, _, htext, ⟨⟩, rfl⟩ := List.forall₂_cons_left_iff.mp htags
      exact ⟨text, htext, by simp [Fields.putAll]⟩
  | property p =>
    simp only [WeaponParts.add, bind_eq_ok_iff, pure_eq_ok_iff]
    constructor
    · rintro ⟨value, hvalue, rfl⟩
      have hfield : p.toField room = .ok (p.key, value) := toField_eq_ok_iff.mpr ⟨rfl, hvalue⟩
      exact ⟨[], [_], .nil, .cons (.property hfield) .nil, by simp [Fields.putAll]⟩
    · rintro ⟨_, _, ⟨⟩, hwritten, rfl⟩
      obtain ⟨field, _, ⟨hfield⟩, ⟨⟩, rfl⟩ := List.forall₂_cons_left_iff.mp hwritten
      obtain ⟨hkey, hvalue⟩ := toField_eq_ok_iff.mp hfield
      exact ⟨_, hvalue, by simp [Fields.putAll, hkey]⟩
  | nested key properties =>
    simp only [WeaponParts.add, bind_eq_ok_iff, pure_eq_ok_iff, propertyFields_eq_ok_iff]
    constructor
    · rintro ⟨fields, hfields, rfl⟩
      exact ⟨[], [_], .nil, .cons (.nested hfields) .nil, by simp [Fields.putAll]⟩
    · rintro ⟨_, _, ⟨⟩, hwritten, rfl⟩
      obtain ⟨field, _, _ | hfields, ⟨⟩, rfl⟩ := List.forall₂_cons_left_iff.mp hwritten
      exact ⟨_, hfields, by simp [Fields.putAll]⟩

theorem WeaponParts.addAll_eq_ok_iff {parts parts' : WeaponParts} {items : List WeaponItem} :
    items.foldlM (WeaponParts.add room) parts = .ok parts' ↔
      ∃ tags written, TagsDenote (items.flatMap WeaponItem.tags) tags ∧
        List.Forall₂ (WeaponItem.Denotes room) (items.flatMap WeaponItem.properties) written ∧
        parts' = ⟨parts.decorators ++ tags, Fields.putAll parts.properties written⟩ := by
  induction items generalizing parts with
  | nil =>
    rw [List.foldlM_nil, pure_eq_ok_iff]
    simp [TagsDenote, Fields.putAll, eq_comm]
  | cons item items ih =>
    simp only [List.foldlM_cons, bind_eq_ok_iff, WeaponParts.add_eq_ok_iff, ih, List.flatMap_cons,
      TagsDenote, forall₂_append_left_iff]
    constructor
    · rintro ⟨_, ⟨tags, written, htags, hwritten, rfl⟩, tags', written', htags', hwritten', rfl⟩
      exact ⟨tags ++ tags', written ++ written', ⟨_, _, htags, htags', rfl⟩,
        ⟨_, _, hwritten, hwritten', rfl⟩, by simp [Fields.putAll_append]⟩
    · rintro ⟨_, _, ⟨tags, tags', htags, htags', rfl⟩, ⟨written, written', hwritten, hwritten', rfl⟩,
        rfl⟩
      exact ⟨_, ⟨tags, written, htags, hwritten, rfl⟩, tags', written', htags', hwritten',
        by simp [Fields.putAll_append]⟩

theorem Weapon.toJson_eq_ok_iff {weapon : Weapon} :
    weapon.toJson room = .ok datum ↔ weapon.Denotes room datum := by
  simp only [Weapon.toJson, bind_eq_ok_iff, pure_eq_ok_iff, WeaponParts.addAll_eq_ok_iff]
  constructor
  · rintro ⟨_, ⟨tags, written, htags, hwritten, rfl⟩, rfl⟩
    exact .object htags hwritten (Fields.putAll_gathers written)
  · rintro ⟨htags, hwritten, hgathers⟩
    refine ⟨_, ⟨_, _, htags, hwritten, rfl⟩, ?_⟩
    rw [Fields.gathers_iff.mp hgathers]
    rfl

theorem Group.toJson_eq_ok_iff {group : Group} :
    group.toJson room = .ok datum ↔ group.Denotes room datum := by
  simp only [Group.toJson, bind_eq_ok_iff, pure_eq_ok_iff, propertyFields_eq_ok_iff]
  constructor
  · rintro ⟨fields, hfields, rfl⟩
    exact .object hfields
  · rintro ⟨hfields⟩
    exact ⟨_, hfields, rfl⟩

theorem groups_eq_ok_iff {groups : List Group} {data : List Json} :
    groups.mapM (Group.toJson room) = .ok data ↔ List.Forall₂ (Group.Denotes room) groups data :=
  mapM_eq_ok_iff.trans (forall₂_iff fun _ _ => Group.toJson_eq_ok_iff)

/-! ## Maps -/

theorem valuesToJson_eq_ok_iff {values : List Value} {data : List Json} :
    valuesToJson room values = .ok data ↔
      List.Forall₂ (fun value datum => value.toJson room = .ok datum) values data := by
  have hvalues : valuesToJson room values = values.mapM (Value.toJson room) := by
    induction values with
    | nil => rfl
    | cons value values ih =>
      rw [valuesToJson, ih, List.mapM_cons]
  rw [hvalues, mapM_eq_ok_iff]

theorem MapParts.add_eq_ok_iff {parts parts' : MapParts} {item : MapItem} :
    parts.add room item = .ok parts' ↔ ∃ teams sites callouts,
      List.Forall₂ (Group.Denotes room) item.teamGroups teams ∧
      List.Forall₂ (Group.Denotes room) item.siteGroups sites ∧
      List.Forall₂ (fun value datum => value.toJson (room - 1) = .ok datum) item.calloutValues
        callouts ∧
      parts' = ⟨parts.teams ++ teams, parts.sites ++ sites,
        parts.callouts ++ calloutTexts callouts⟩ := by
  cases item with
  | teams groups =>
    simp only [MapParts.add, bind_eq_ok_iff, pure_eq_ok_iff, groups_eq_ok_iff]
    constructor
    · rintro ⟨teams, hteams, rfl⟩
      exact ⟨teams, [], [], hteams, .nil, .nil, by simp [calloutTexts]⟩
    · rintro ⟨teams, _, _, hteams, ⟨⟩, ⟨⟩, rfl⟩
      exact ⟨teams, hteams, by simp [calloutTexts]⟩
  | sites groups =>
    simp only [MapParts.add, bind_eq_ok_iff, pure_eq_ok_iff, groups_eq_ok_iff]
    constructor
    · rintro ⟨sites, hsites, rfl⟩
      exact ⟨[], sites, [], .nil, hsites, .nil, by simp [calloutTexts]⟩
    · rintro ⟨_, sites, _, ⟨⟩, hsites, ⟨⟩, rfl⟩
      exact ⟨sites, hsites, by simp [calloutTexts]⟩
  | callouts values =>
    simp only [MapParts.add, bind_eq_ok_iff, pure_eq_ok_iff, valuesToJson_eq_ok_iff]
    constructor
    · rintro ⟨callouts, hcallouts, rfl⟩
      exact ⟨[], [], callouts, .nil, .nil, hcallouts, by simp [calloutTexts]⟩
    · rintro ⟨_, _, callouts, ⟨⟩, ⟨⟩, hcallouts, rfl⟩
      exact ⟨callouts, hcallouts, by simp [calloutTexts]⟩

theorem MapParts.addAll_eq_ok_iff {parts parts' : MapParts} {items : List MapItem} :
    items.foldlM (MapParts.add room) parts = .ok parts' ↔ ∃ teams sites callouts,
      List.Forall₂ (Group.Denotes room) (items.flatMap MapItem.teamGroups) teams ∧
      List.Forall₂ (Group.Denotes room) (items.flatMap MapItem.siteGroups) sites ∧
      List.Forall₂ (fun value datum => value.toJson (room - 1) = .ok datum)
        (items.flatMap MapItem.calloutValues) callouts ∧
      parts' = ⟨parts.teams ++ teams, parts.sites ++ sites,
        parts.callouts ++ calloutTexts callouts⟩ := by
  induction items generalizing parts with
  | nil =>
    rw [List.foldlM_nil, pure_eq_ok_iff]
    simp [calloutTexts, eq_comm]
  | cons item items ih =>
    simp only [List.foldlM_cons, bind_eq_ok_iff, MapParts.add_eq_ok_iff, ih, List.flatMap_cons,
      forall₂_append_left_iff]
    constructor
    · rintro ⟨_, ⟨teams, sites, callouts, hteams, hsites, hcallouts, rfl⟩, teams', sites', callouts',
        hteams', hsites', hcallouts', rfl⟩
      exact ⟨teams ++ teams', sites ++ sites', callouts ++ callouts', ⟨_, _, hteams, hteams', rfl⟩,
        ⟨_, _, hsites, hsites', rfl⟩, ⟨_, _, hcallouts, hcallouts', rfl⟩, by simp [calloutTexts]⟩
    · rintro ⟨_, _, _, ⟨teams, teams', hteams, hteams', rfl⟩, ⟨sites, sites', hsites, hsites', rfl⟩,
        ⟨callouts, callouts', hcallouts, hcallouts', rfl⟩, rfl⟩
      exact ⟨_, ⟨teams, sites, callouts, hteams, hsites, hcallouts, rfl⟩, teams', sites', callouts',
        hteams', hsites', hcallouts', by simp [calloutTexts]⟩

/-! ## Sections -/

theorem Section.toJson_eq_ok_iff {part : Section} :
    part.toJson room = .ok datum ↔ part.Denotes room datum := by
  cases part with
  | config properties =>
    simp only [Section.toJson, bind_eq_ok_iff, pure_eq_ok_iff, propertyFields_eq_ok_iff]
    exact ⟨fun ⟨_, h, he⟩ => he ▸ .config h, fun h => by cases h; exact ⟨_, ‹_›, rfl⟩⟩
  | economy properties =>
    simp only [Section.toJson, bind_eq_ok_iff, pure_eq_ok_iff, propertyFields_eq_ok_iff]
    exact ⟨fun ⟨_, h, he⟩ => he ▸ .economy h, fun h => by cases h; exact ⟨_, ‹_›, rfl⟩⟩
  | «match» properties =>
    simp only [Section.toJson, bind_eq_ok_iff, pure_eq_ok_iff, propertyFields_eq_ok_iff]
    exact ⟨fun ⟨_, h, he⟩ => he ▸ .match h, fun h => by cases h; exact ⟨_, ‹_›, rfl⟩⟩
  | agents blocks =>
    simp only [Section.toJson, bind_eq_ok_iff, pure_eq_ok_iff, mapM_eq_ok_iff,
      Agent.toJson_eq_ok_iff]
    exact ⟨fun ⟨_, h, he⟩ => he ▸ .agents h, fun h => by cases h; exact ⟨_, ‹_›, rfl⟩⟩
  | weapons blocks =>
    simp only [Section.toJson, bind_eq_ok_iff, pure_eq_ok_iff, mapM_eq_ok_iff,
      Weapon.toJson_eq_ok_iff]
    exact ⟨fun ⟨_, h, he⟩ => he ▸ .weapons h, fun h => by cases h; exact ⟨_, ‹_›, rfl⟩⟩
  | statusEffects blocks =>
    simp only [Section.toJson, bind_eq_ok_iff, pure_eq_ok_iff, behaviours_eq_ok_iff]
    exact ⟨fun ⟨_, h, he⟩ => he ▸ .statusEffects h, fun h => by cases h; exact ⟨_, ‹_›, rfl⟩⟩
  | map name items =>
    simp only [Section.toJson, bind_eq_ok_iff, pure_eq_ok_iff, MapParts.addAll_eq_ok_iff]
    constructor
    · rintro ⟨_, ⟨teams, sites, callouts, hteams, hsites, hcallouts, rfl⟩, rfl⟩
      exact .map hteams hsites hcallouts
    · rintro (_ | _ | _ | _ | _ | _ | ⟨hteams, hsites, hcallouts⟩)
      exact ⟨_, ⟨_, _, _, hteams, hsites, hcallouts, rfl⟩, rfl⟩

theorem Document.toJson_eq_ok_iff {document : Document} :
    document.toJson room = .ok datum ↔ document.Denotes room datum := by
  have hsections {fields : Fields Json} :
      List.Forall₂ (fun (part : Section) field => ∃ datum, part.Denotes room datum ∧
        (part.key, datum) = field) document.sections fields ↔
      ∃ data, List.Forall₂ (Section.Denotes room) document.sections data ∧
        fields = sectionFields document.sections data := by
    unfold sectionFields
    induction document.sections generalizing fields with
    | nil => simp
    | cons part sections ih =>
      simp only [List.forall₂_cons_left_iff, ih]
      constructor
      · rintro ⟨_, _, ⟨datum, hpart, rfl⟩, ⟨data, hdata, rfl⟩, rfl⟩
        exact ⟨_, ⟨datum, data, hpart, hdata, rfl⟩, rfl⟩
      · rintro ⟨_, ⟨datum, data, hpart, hdata, rfl⟩, rfl⟩
        exact ⟨_, _, ⟨datum, hpart, rfl⟩, ⟨data, hdata, rfl⟩, rfl⟩
  simp only [Document.toJson, bind_eq_ok_iff, pure_eq_ok_iff, mapM_eq_ok_iff,
    Section.toJson_eq_ok_iff, hsections]
  constructor
  · rintro ⟨_, ⟨data, hdata, rfl⟩, rfl⟩
    exact .game hdata
  · rintro ⟨hdata⟩
    exact ⟨_, ⟨_, hdata, rfl⟩, rfl⟩

/-- A source compiles to what its document stands for. -/
theorem compile_eq_ok_iff {limits : Limits} {source : String} {game : Game} :
    compile limits source = .ok game ↔ ∃ document, Document.parse source = .ok document ∧
      document.Denotes limits.listing game.datum ∧ document.name = game.name ∧
        document.sections.length = game.sections := by
  simp only [compile, bind_eq_ok_iff, pure_eq_ok_iff, Document.toJson_eq_ok_iff]
  constructor
  · rintro ⟨document, hparse, datum, hdatum, rfl⟩
    exact ⟨document, hparse, hdatum, rfl, rfl⟩
  · rintro ⟨document, hparse, hdatum, hname, hsections⟩
    exact ⟨document, hparse, game.datum, hdatum, by rw [hname, hsections]⟩

end GameScript.Config
