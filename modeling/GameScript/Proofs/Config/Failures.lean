import GameScript.Config.Compile
import GameScript.Proofs.Config.Positions

/-! # Why a source does not compile

A source that is not of the grammar is reported on one of its lines, and so is a trigger that does not
exist. What remains are literals: a number or a text in quotes that stands for nothing has an error of
its own, without a line. -/

namespace GameScript.Config

/-! ## The values of a document -/

/-- A number or a text in quotes, as written. -/
inductive Literal where
  | number (text : String)
  | quoted (text : String)
  deriving Repr, DecidableEq

/-- What a literal stands for. -/
def Literal.value : Literal → Except Error Json
  | .number text => numberValue text
  | .quoted text => return .string (← quotedValue text)

mutual

def Value.literals : Value → List Literal
  | .number text | .duration text | .percentage text => [.number text]
  | .quoted text => [.quoted text]
  | .flag _ | .word _ => []
  | .list items => valueLiterals items
termination_by structural value => value

def valueLiterals : List Value → List Literal
  | [] => []
  | value :: rest => value.literals ++ valueLiterals rest
termination_by structural values => values

end

mutual

/-- How many lists are open at once in a value. -/
def Value.depth : Value → Nat
  | .list items => depthOf items + 1
  | _ => 0
termination_by structural value => value

def depthOf : List Value → Nat
  | [] => 0
  | value :: rest => max value.depth (depthOf rest)
termination_by structural values => values

end

def propertyValues (properties : List Property) : List Value := properties.map (·.value)

/-- A text in quotes is a value also where it belongs to a tag. -/
def Atom.values : Atom → List Value
  | .plain _ => []
  | .quoted text => [.quoted text]

def Step.values (step : Step) : List Value :=
  propertyValues step.arguments ++ propertyValues step.modifiers

def BehaviourItem.values : BehaviourItem → List Value
  | .decorator _ => []
  | .trigger t => t.steps.flatMap Step.values
  | .property p => [p.value]

def Behaviour.values (behaviour : Behaviour) : List Value :=
  behaviour.items.flatMap BehaviourItem.values

def AgentItem.values : AgentItem → List Value
  | .tag _ atom => atom.values
  | .stats properties => propertyValues properties
  | .abilities blocks => blocks.flatMap Behaviour.values

def WeaponItem.values : WeaponItem → List Value
  | .tag _ atom => atom.values
  | .property p => [p.value]
  | .nested _ properties => propertyValues properties

def MapItem.values : MapItem → List Value
  | .teams groups | .sites groups => groups.flatMap (propertyValues ·.properties)
  | .callouts items => [.list items]

def Section.values : Section → List Value
  | .config properties | .economy properties | .match properties => propertyValues properties
  | .agents blocks => blocks.flatMap (·.items.flatMap AgentItem.values)
  | .weapons blocks => blocks.flatMap (·.items.flatMap WeaponItem.values)
  | .map _ items => items.flatMap MapItem.values
  | .statusEffects blocks => blocks.flatMap Behaviour.values

/-- The values of a document, in order. -/
def Document.values (document : Document) : List Value := document.sections.flatMap Section.values

/-! ## The triggers of a document -/

def Behaviour.triggers (behaviour : Behaviour) : List Trigger :=
  behaviour.items.filterMap fun
    | .trigger t => some t
    | _ => none

def AgentItem.behaviours : AgentItem → List Behaviour
  | .abilities blocks => blocks
  | _ => []

def Section.behaviours : Section → List (Owner × Behaviour)
  | .agents blocks =>
    blocks.flatMap (·.items.flatMap fun item => item.behaviours.map (.ability, ·))
  | .statusEffects blocks => blocks.map (.effect, ·)
  | _ => []

/-- The abilities and effects of a document, in order. -/
def Document.behaviours (document : Document) : List (Owner × Behaviour) :=
  document.sections.flatMap Section.behaviours

/-! ## Errors of the data -/

/-- What can be wrong with the parts of a document: a list that nests too deeply, a literal that
stands for nothing, or a trigger that does not exist. -/
inductive Faulty (room : Nat) (values : List Value) (behaviours : List (Owner × Behaviour)) :
    Error → Prop where
  | tooDeep {value : Value} : value ∈ values → room < value.depth →
      Faulty room values behaviours .tooDeep
  | literal {value : Value} {literal : Literal} {error : Error} : value ∈ values →
      literal ∈ value.literals → literal.value = .error error → Faulty room values behaviours error
  | trigger {owner : Owner} {behaviour : Behaviour} {trigger : Trigger} :
      (owner, behaviour) ∈ behaviours → trigger ∈ behaviour.triggers →
      trigger.name ∉ owner.triggers →
      Faulty room values behaviours (.unknownTrigger owner trigger.name trigger.line)

variable {room : Nat} {values values' : List Value}
  {behaviours behaviours' : List (Owner × Behaviour)}

theorem Faulty.mono {error : Error} (h : Faulty room values behaviours error)
    (hv : values ⊆ values') (hb : behaviours ⊆ behaviours') :
    Faulty room values' behaviours' error := by
  cases h with
  | tooDeep hmem hdeep => exact .tooDeep (hv hmem) hdeep
  | literal hmem hl hvalue => exact .literal (hv hmem) hl hvalue
  | trigger hmem ht hn => exact .trigger (hb hmem) ht hn

namespace Settles

variable {ε α β : Type} {P P' : α → Prop} {Q : β → Prop} {E E' : ε → Prop} {x : Except ε α}

theorem mono (h : Settles P E x) (hP : ∀ a, P a → P' a) (hE : ∀ e, E e → E' e) :
    Settles P' E' x := by
  cases x with
  | ok a => exact hP a h
  | error e => exact hE e h

theorem bind {f : α → Except ε β} (h : Settles P E x) (hf : ∀ a, P a → Settles Q E (f a)) :
    Settles Q E (x >>= f) := by
  cases x with
  | ok a => exact hf a h
  | error e => exact h

theorem mapM {f : α → Except ε β} {as : List α} (h : ∀ a ∈ as, Settles Q E (f a)) :
    Settles (fun bs => ∀ b ∈ bs, Q b) E (as.mapM f) := by
  induction as with
  | nil => exact nofun
  | cons a as ih =>
    rw [List.mapM_cons]
    refine bind (h a List.mem_cons_self) fun b hb => ?_
    refine bind (ih fun a ha => h a (List.mem_cons_of_mem _ ha)) fun bs hbs => ?_
    exact List.forall_mem_cons.mpr ⟨hb, hbs⟩

theorem foldlM {f : β → α → Except ε β} {as : List α}
    (h : ∀ a ∈ as, ∀ b, Settles (fun _ => True) E (f b a)) (b : β) :
    Settles (fun _ => True) E (as.foldlM f b) := by
  induction as generalizing b with
  | nil => trivial
  | cons a as ih =>
    rw [List.foldlM_cons]
    refine bind (h a List.mem_cons_self b) fun b _ => ?_
    exact ih (fun a ha => h a (List.mem_cons_of_mem _ ha)) b

end Settles

/-- Only what is written can be wrong with the data of a part of a document. -/
def Blames {α : Type} (room : Nat) (values : List Value) (behaviours : List (Owner × Behaviour))
    (x : Except Error α) : Prop := Settles (fun _ => True) (Faulty room values behaviours) x

namespace Blames

variable {α β : Type} {x : Except Error α}

theorem mono (h : Blames room values behaviours x) (hv : values ⊆ values')
    (hb : behaviours ⊆ behaviours') : Blames room values' behaviours' x :=
  Settles.mono h (fun _ => id) fun _ he => he.mono hv hb

theorem left (h : Blames room values behaviours x) : Blames room (values ++ values') behaviours x :=
  h.mono (List.subset_append_left _ _) (List.Subset.refl _)

theorem right (h : Blames room values behaviours x) : Blames room (values' ++ values) behaviours x :=
  h.mono (List.subset_append_right _ _) (List.Subset.refl _)

theorem bind {f : α → Except Error β} (h : Blames room values behaviours x)
    (hf : ∀ a, Blames room values behaviours (f a)) : Blames room values behaviours (x >>= f) :=
  Settles.bind h fun a _ => hf a

theorem map (h : Blames room values behaviours x) (f : α → β) :
    Blames room values behaviours (x >>= fun a => pure (f a)) := h.bind fun _ => trivial

variable {γ : Type} {parts : List γ} {written : γ → List Value}

/-- What is wrong with a list of parts is wrong with one of them. -/
theorem mapM {f : γ → Except Error β}
    (h : ∀ part ∈ parts, Blames room (written part) behaviours (f part)) :
    Blames room (parts.flatMap written) behaviours (parts.mapM f) := by
  have hall : Settles (fun bs : List β => ∀ b ∈ bs, True)
      (Faulty room (parts.flatMap written) behaviours) (parts.mapM f) := .mapM fun part hpart =>
    (h part hpart).mono (fun _ => List.mem_flatMap_of_mem hpart) (List.Subset.refl _)
  exact hall.mono (fun _ _ => trivial) fun _ => id

theorem foldlM {f : β → γ → Except Error β}
    (h : ∀ part ∈ parts, ∀ b, Blames room (written part) behaviours (f b part)) (b : β) :
    Blames room (parts.flatMap written) behaviours (parts.foldlM f b) :=
  Settles.foldlM (fun part hpart b =>
    (h part hpart b).mono (fun _ => List.mem_flatMap_of_mem hpart) (List.Subset.refl _)) b

end Blames

/-! ## Values and properties -/

theorem blames_number {value : Value} {text : String} (h : .number text ∈ value.literals) :
    Blames room [value] behaviours (numberValue text) := by
  cases he : numberValue text with
  | ok => trivial
  | error => exact .literal List.mem_cons_self h he

theorem blames_quoted (text : String) :
    Blames room [.quoted text] behaviours (quotedValue text) := by
  cases he : quotedValue text with
  | ok => trivial
  | error =>
    refine .literal List.mem_cons_self List.mem_cons_self ?_
    rw [Literal.value, he]
    rfl

theorem depth_le_depthOf {value : Value} {items : List Value} (h : value ∈ items) :
    value.depth ≤ depthOf items := by
  induction items with
  | nil => cases h
  | cons item items ih =>
    rw [depthOf]
    rcases List.mem_cons.mp h with rfl | h
    · exact Nat.le_max_left _ _
    · exact Nat.le_trans (ih h) (Nat.le_max_right _ _)

theorem valueLiterals_eq (items : List Value) :
    valueLiterals items = items.flatMap Value.literals := by
  induction items with
  | nil => rfl
  | cons item items ih => rw [valueLiterals, ih, List.flatMap_cons]

/-- What is wrong with one of the values of a list is wrong with the list. -/
theorem Faulty.inList {items : List Value} {error : Error}
    (h : Faulty (room - 1) items behaviours error) : Faulty room [.list items] behaviours error := by
  cases h with
  | tooDeep hmem hdeep =>
    have hle := depth_le_depthOf hmem
    exact .tooDeep List.mem_cons_self (by rw [Value.depth]; omega)
  | literal hmem hl hvalue =>
    refine .literal List.mem_cons_self ?_ hvalue
    rw [Value.literals, valueLiterals_eq]
    exact List.mem_flatMap_of_mem hmem hl
  | trigger hmem ht hn => exact .trigger hmem ht hn

theorem Blames.inList {α : Type} {items : List Value} {x : Except Error α}
    (h : Blames (room - 1) items behaviours x) : Blames room [.list items] behaviours x :=
  Settles.mono h (fun _ => id) fun _ => .inList

mutual

theorem blames_value (room : Nat) :
    ∀ value : Value, Blames room [value] behaviours (value.toJson room)
  | .number _ => blames_number List.mem_cons_self
  | .duration _ => (blames_number List.mem_cons_self).map _
  | .percentage _ => (blames_number List.mem_cons_self).map _
  | .quoted text => (blames_quoted text).map _
  | .flag _ => trivial
  | .word _ => trivial
  | .list items => by
    unfold Value.toJson
    split
    · next h => exact .tooDeep List.mem_cons_self (by rw [h, Value.depth]; omega)
    · exact (blames_values (room - 1) items).inList.map _

theorem blames_values (room : Nat) :
    ∀ values : List Value, Blames room values behaviours (valuesToJson room values)
  | [] => trivial
  | value :: rest =>
    (blames_value room value).left.bind fun _ => (blames_values room rest).right.map _

end

variable (room)

theorem blames_fields (properties : List Property) :
    Blames room (propertyValues properties) behaviours (propertyFields room properties) := by
  have hwritten : propertyValues properties = properties.flatMap fun p => [p.value] :=
    List.map_eq_flatMap
  rw [hwritten]
  exact (Blames.mapM fun p _ => (blames_value room p.value).map _).map _

theorem blames_tag (name : String) (atom : Atom) :
    Blames room atom.values behaviours (tagText name atom) := by
  cases atom with
  | plain => trivial
  | quoted text => exact (blames_quoted text).map _

/-! ## Behaviour -/

theorem blames_step (step : Step) : Blames room step.values behaviours (step.toJson room) :=
  (blames_fields room step.arguments).left.bind fun _ =>
    (blames_fields room step.modifiers).right.map _

/-- The item of a trigger keeps its name and line. -/
def CompiledItem.IsOf (behaviour : Behaviour) (item : CompiledItem) : Prop :=
  ∀ name line pipeline, item = .trigger name line pipeline →
    ∃ trigger ∈ behaviour.triggers, trigger.name = name ∧ trigger.line = line

theorem compile_isOf {behaviour : Behaviour} {item : BehaviourItem} (hitem : item ∈ behaviour.items) :
    Settles (CompiledItem.IsOf behaviour) (Faulty room item.values behaviours)
      (item.compile room) := by
  cases item with
  | decorator => exact nofun
  | property p => exact Settles.bind (blames_value room p.value) fun _ _ => nofun
  | trigger t =>
    refine Settles.bind (Blames.mapM fun step _ => blames_step room step) fun _ _ => ?_
    intro name line pipeline h
    cases h
    exact ⟨t, List.mem_filterMap.mpr ⟨_, hitem, rfl⟩, rfl, rfl⟩

theorem triggerFields_unknown {behaviour : Behaviour} (owner : Owner) {items : List CompiledItem}
    (h : ∀ item ∈ items, item.IsOf behaviour) :
    Blames room [] [(owner, behaviour)] (triggerFields owner items) := by
  refine Settles.foldlM (fun item hitem fields => ?_) []
  split
  · next name line pipeline =>
    obtain ⟨trigger, hmem, rfl, rfl⟩ := h _ hitem _ _ _ rfl
    split
    · trivial
    · next hname => exact .trigger List.mem_cons_self hmem hname
  · trivial

theorem blames_behaviour (owner : Owner) (behaviour : Behaviour) :
    Blames room behaviour.values [(owner, behaviour)] (behaviour.toJson room owner) := by
  refine Settles.bind (P := fun items => ∀ item ∈ items, item.IsOf behaviour)
    (.mapM fun item hitem => ?_) fun items hitems => ?_
  · exact (compile_isOf room hitem).mono (fun _ => id) fun _ he =>
      he.mono (fun _ => List.mem_flatMap_of_mem hitem) (List.Subset.refl _)
  · have htriggers := triggerFields_unknown room owner hitems
    exact (htriggers.mono (List.nil_subset _) (List.Subset.refl _)).map _

/-- What is wrong with a list of abilities or effects. -/
theorem blames_behaviours (owner : Owner) (blocks : List Behaviour) :
    Blames room (blocks.flatMap Behaviour.values) (blocks.map (owner, ·))
      (blocks.mapM (Behaviour.toJson room owner)) :=
  .mapM fun block hblock => (blames_behaviour room owner block).mono (List.Subset.refl _) <| by
    simpa using hblock

/-! ## Sections -/

theorem blames_agentItem (parts : AgentParts) (item : AgentItem) :
    Blames room item.values (item.behaviours.map (.ability, ·)) (parts.add room item) := by
  cases item with
  | tag name atom => exact (blames_tag room name atom).map _
  | stats properties => exact (blames_fields room properties).map _
  | abilities blocks => exact (blames_behaviours room .ability blocks).map _

theorem blames_weaponItem (parts : WeaponParts) (item : WeaponItem) :
    Blames room item.values behaviours (parts.add room item) := by
  cases item with
  | tag name atom => exact (blames_tag room name atom).map _
  | property p => exact (blames_value room p.value).map _
  | nested key properties => exact (blames_fields room properties).map _

theorem blames_groups (groups : List Group) :
    Blames room (groups.flatMap (propertyValues ·.properties)) behaviours
      (groups.mapM (Group.toJson room)) :=
  .mapM fun group _ => (blames_fields room group.properties).map _

theorem blames_mapItem (parts : MapParts) (item : MapItem) :
    Blames room item.values behaviours (parts.add room item) := by
  cases item with
  | teams groups => exact (blames_groups room groups).map _
  | sites groups => exact (blames_groups room groups).map _
  | callouts items => exact (blames_values (room - 1) items).inList.map _

theorem blames_section (part : Section) :
    Blames room part.values part.behaviours (part.toJson room) := by
  cases part with
  | config properties => exact (blames_fields room properties).map _
  | economy properties => exact (blames_fields room properties).map _
  | «match» properties => exact (blames_fields room properties).map _
  | agents blocks =>
    refine (Blames.mapM fun agent hagent =>
      Blames.map (.foldlM (fun item hitem parts => ?_) _) _).map _
    refine (blames_agentItem room parts item).mono (List.Subset.refl _) fun found hfound => ?_
    exact List.mem_flatMap_of_mem hagent (List.mem_flatMap_of_mem hitem hfound)
  | weapons blocks =>
    exact (Blames.mapM fun weapon _ =>
      Blames.map (.foldlM (fun item _ parts => blames_weaponItem room parts item) _) _).map _
  | map name items =>
    exact Blames.map (.foldlM (fun item _ parts => blames_mapItem room parts item) _) _
  | statusEffects blocks => exact (blames_behaviours room .effect blocks).map _

/-- What is wrong with the data of a document is wrong with something that is written in it. -/
theorem blames_document (document : Document) :
    Blames room document.values document.behaviours (document.toJson room) := by
  refine (Blames.mapM fun part hpart => ?_).map _
  refine ((blames_section room part).mono (List.Subset.refl _) ?_).map _
  exact fun _ => List.mem_flatMap_of_mem hpart

/-! ## Reading -/

section Rules

variable {source : List Char} {inv : Invariant} {α : Type} {P : α → Prop}

theorem Keeps.value (depth : Nat) : Keeps inv (Read.value depth) fun _ => True := by
  induction depth with
  | zero => exact .unexpected
  | succ depth ih =>
    refine peek.bind fun _ _ => .ite ?_ ?_
    · exact (take _).discard.andThen (ih.list.bind fun _ _ => .pure trivial)
    · refine get.bind fun reader _ => ?_
      split
      · exact (take _).discard.andThen (.pure trivial)
      · exact .unexpected

theorem Keeps.valueAfterHas : Keeps inv Read.valueAfterHas fun _ => True :=
  (expect _ _).discard.andThen (remaining.bind fun _ _ => .value _)

theorem Keeps.property : Keeps inv Read.property fun _ => True :=
  (name _).bind fun _ _ => valueAfterHas.bind fun _ _ => .pure trivial

theorem Keeps.properties (after : Expected) :
    Keeps inv (Read.properties after) fun _ => True := property.block.mono fun _ _ => trivial

theorem Keeps.step : Keeps inv Read.step fun _ => True := by
  have arguments : Keeps inv Read.arguments fun _ => True :=
    peek.bind fun _ _ => .ite
      ((take _).discard.andThen (property.list.mono fun _ _ => trivial)) (.pure trivial)
  have modifiers : Keeps inv Read.modifiers fun _ => True :=
    peek.bind fun _ _ => .ite ((take _).discard.andThen (properties _)) (.pure trivial)
  exact (name _).bind fun _ _ => (expect _ _).discard.andThen <| (name _).bind fun _ _ =>
    arguments.bind fun _ _ => modifiers.bind fun _ _ => .pure trivial

theorem Keeps.stepsFrom (fuel : Nat) (done : List Step) :
    Keeps inv (Read.stepsFrom fuel done) fun _ => True := by
  induction fuel generalizing done with
  | zero => exact .unexpected
  | succ fuel ih =>
    refine step.bind fun _ _ => peek.bind fun _ _ => .ite ?_ (.pure trivial)
    exact (take _).discard.andThen (ih _)

/-- The lines of the triggers of an ability or effect are lines of the source. -/
def Behaviour.Lined (source : List Char) (behaviour : Behaviour) : Prop :=
  ∀ trigger ∈ behaviour.triggers, Position.IsLine source trigger.line

theorem Keeps.behaviourItem : Keeps (.located source) Read.behaviourItem fun item =>
    ∀ t, item = .trigger t → Position.IsLine source t.line := by
  refine peek.bind fun _ _ => .ite ?_ ?_
  · exact (take _).discard.andThen ((name _).bind fun _ _ => .pure nofun)
  · refine (expect _ _).bind fun first hfirst => peek.bind fun _ _ => .ite ?_ ?_
    · refine (take _).discard.andThen (remaining.bind fun _ _ =>
        (stepsFrom _ _).bind fun _ _ => .pure ?_)
      intro t ht
      cases ht
      exact hfirst.line
    · exact valueAfterHas.bind fun _ _ => .pure nofun

theorem Keeps.behaviour (keyword : Keyword) :
    Keeps (.located source) (Read.behaviour keyword) (Behaviour.Lined source) := by
  refine (expect _ _).discard.andThen ((name _).bind fun _ _ =>
    behaviourItem.block.bind fun items hitems => .pure fun trigger htrigger => ?_)
  obtain ⟨item, hitem, he⟩ := List.mem_filterMap.mp htrigger
  split at he
  · next t => exact hitems _ hitem trigger (by cases he; rfl)
  · cases he

theorem Keeps.tagRest : Keeps inv Read.tagRest fun _ => True := by
  have atom : Keeps inv Read.atom fun _ => True := by
    refine get.bind fun reader _ => ?_
    split
    · split
      · exact (take _).discard.andThen (.pure trivial)
      · exact (take _).discard.andThen (.pure trivial)
      · exact (take _).discard.andThen (.pure trivial)
      · exact .unexpected
    · exact .unexpected
  exact (name _).bind fun _ _ => (expect _ _).discard.andThen (atom.bind fun _ _ => .pure trivial)

theorem Keeps.agentItem : Keeps (.located source) Read.agentItem fun item =>
    ∀ behaviour ∈ item.behaviours, behaviour.Lined source := by
  refine peek.bind fun _ _ => ?_
  split
  · exact (take _).discard.andThen (tagRest.bind fun _ _ => .pure nofun)
  · exact (take _).discard.andThen ((properties _).bind fun _ _ => .pure nofun)
  · exact (take _).discard.andThen ((behaviour _).block.bind fun _ h => .pure h)
  · exact .unexpected

theorem Keeps.agent : Keeps (.located source) Read.agent fun agent =>
    ∀ item ∈ agent.items, ∀ behaviour ∈ item.behaviours, behaviour.Lined source :=
  (expect _ _).discard.andThen ((name _).bind fun _ _ => agentItem.block.bind fun _ h => .pure h)

theorem Keeps.weapon : Keeps inv Read.weapon fun _ => True := by
  have item : Keeps inv Read.weaponItem fun _ => True := by
    refine peek.bind fun _ _ => .ite ?_ ?_
    · exact (take _).discard.andThen (tagRest.bind fun _ _ => .pure trivial)
    · refine (name _).bind fun _ _ => peek.bind fun _ _ => .ite ?_ ?_
      · exact (properties _).bind fun _ _ => .pure trivial
      · exact valueAfterHas.bind fun _ _ => .pure trivial
  exact (expect _ _).discard.andThen ((name _).bind fun _ _ =>
    item.block.bind fun _ _ => .pure trivial)

theorem Keeps.mapItem : Keeps inv Read.mapItem fun _ => True := by
  have group (keyword : Keyword) : Keeps inv (Read.group keyword) fun _ => True :=
    (expect _ _).discard.andThen ((name _).bind fun _ _ =>
      (properties _).bind fun _ _ => .pure trivial)
  have callouts : Keeps inv Read.calloutValues fun _ => True := by
    refine (expect _ _).discard.andThen ((expect _ _).discard.andThen ?_)
    have one : Keeps inv (do Read.value ((← Read.remaining) + 1)) fun _ => True :=
      remaining.bind fun _ _ => .value _
    exact one.list.mono fun _ _ => trivial
  refine peek.bind fun _ _ => ?_
  split
  · exact (take _).discard.andThen ((group _).block.bind fun _ _ => .pure trivial)
  · exact (take _).discard.andThen ((group _).block.bind fun _ _ => .pure trivial)
  · exact (take _).discard.andThen (callouts.bind fun _ _ => .pure trivial)
  · exact .unexpected

/-- The lines of all triggers of a section are lines of the source. -/
def Section.Lined (source : List Char) (part : Section) : Prop :=
  ∀ found ∈ part.behaviours, found.2.Lined source

theorem Keeps.sectionBlock : Keeps (.located source) Read.sectionBlock (Section.Lined source) := by
  refine peek.bind fun _ _ => ?_
  split
  · exact (take _).discard.andThen ((properties _).bind fun _ _ => .pure nofun)
  · exact (take _).discard.andThen ((properties _).bind fun _ _ => .pure nofun)
  · exact (take _).discard.andThen ((properties _).bind fun _ _ => .pure nofun)
  · refine (take _).discard.andThen (agent.block.bind fun blocks h => .pure fun found hfound => ?_)
    obtain ⟨block, hblock, hfound⟩ := List.mem_flatMap.mp hfound
    obtain ⟨item, hitem, hfound⟩ := List.mem_flatMap.mp hfound
    obtain ⟨behaviour, hbehaviour, rfl⟩ := List.mem_map.mp hfound
    exact h block hblock item hitem behaviour hbehaviour
  · exact (take _).discard.andThen (weapon.block.bind fun _ _ => .pure nofun)
  · refine (take _).discard.andThen ((behaviour _).block.bind fun blocks h =>
      .pure fun found hfound => ?_)
    obtain ⟨behaviour, hbehaviour, rfl⟩ := List.mem_map.mp hfound
    exact h behaviour hbehaviour
  · exact (take _).discard.andThen ((name _).bind fun _ _ =>
      mapItem.block.bind fun _ _ => .pure nofun)
  · exact .unexpected

theorem Keeps.document : Keeps (.located source) Read.document fun document =>
    ∀ found ∈ document.behaviours, found.2.Lined source := by
  refine (expect _ _).discard.andThen ((name _).bind fun _ _ =>
    sectionBlock.block.bind fun sections h => peek.bind fun _ _ => .ite .unexpected (.pure ?_))
  intro found hfound
  obtain ⟨part, hpart, hfound⟩ := List.mem_flatMap.mp hfound
  exact h part hpart found hfound

end Rules

/-- A source is a document whose triggers stand on lines of it, or the error is on one of them. -/
theorem parse_located (source : String) :
    Settles (fun document => ∀ found ∈ document.behaviours, found.2.Lined source.toList)
      (Error.Located source.toList) (Document.parse source) := by
  have hfetch : Settles (Reader.Within source.toList) (Error.Located source.toList)
      (Reader.fetch source.toList .start .start [.word .game]) :=
    fetch_within [] _ rfl (Position.start_in _)
  refine hfetch.bind fun reader hreader => ?_
  have hkept := Keeps.document reader hreader
  split
  · next h =>
    rw [h] at hkept
    exact hkept.1
  · next h =>
    rw [h] at hkept
    exact hkept

/-! ## Compiling -/

/-- A literal that stands for nothing has no line. -/
theorem Literal.value_line {literal : Literal} {error : Error} (h : literal.value = .error error) :
    error.line? = none := by
  cases literal with
  | number text =>
    simp only [value, numberValue] at h
    split at h
    · cases h
    · split_ifs at h
      cases h
      rfl
  | quoted text =>
    unfold value quotedValue at h
    dsimp only at h
    split at h
    · cases h
      rfl
    · split at h
      · cases h
      · cases h
        rfl

/-- Why a document has no data, unless one of its triggers does not exist: a list nests too deeply, or
a literal stands for nothing. -/
def Document.Unusable (limits : Limits) (document : Document) (error : Error) : Prop :=
  (error = .tooDeep ∧ ∃ value ∈ document.values, limits.listing < value.depth) ∨
    ∃ value ∈ document.values, ∃ literal ∈ value.literals, literal.value = .error error

theorem Document.Unusable.line {limits : Limits} {document : Document} {error : Error}
    (h : document.Unusable limits error) : error.line? = none := by
  rcases h with ⟨rfl, -⟩ | ⟨value, -, literal, -, hvalue⟩
  · rfl
  · exact Literal.value_line hvalue

/-- A source compiles, or something is reported on one of its lines, or it is a document without
data. -/
theorem compile_settles (limits : Limits) (source : String) :
    Settles (fun _ => True) (fun error => error.Located source.toList ∨
      ∃ document, Document.parse source = .ok document ∧ document.Unusable limits error)
      (compile limits source) := by
  have hparse := parse_located source
  unfold compile
  cases hdocument : Document.parse source with
  | error error =>
    rw [hdocument] at hparse
    exact .inl hparse
  | ok document =>
    rw [hdocument] at hparse
    have hdata := blames_document limits.listing document
    change Settles _ _ (document.toJson limits.listing >>= fun datum => _)
    refine Settles.bind (Settles.mono hdata (fun _ => id) fun error he => ?_) fun _ _ => trivial
    cases he with
    | tooDeep hmem hdeep => exact .inr ⟨document, rfl, .inl ⟨rfl, _, hmem, hdeep⟩⟩
    | literal hmem hl hvalue => exact .inr ⟨document, rfl, .inr ⟨_, hmem, _, hl, hvalue⟩⟩
    | trigger hmem ht => exact .inl ⟨_, rfl, hparse _ hmem _ ht⟩

end GameScript.Config
