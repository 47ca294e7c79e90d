import GameScript.Proofs.Config.Denotation

/-! # Documents that are arranged differently

Two documents are alike if they have the same items of each kind in the same order, however these are
spread over the parts of a block and whatever stands between them. The lines of triggers do not matter
either. What one of them stands for, the other one stands for too. -/

namespace GameScript.Config

/-! ## Parts that are alike -/

/-- The parameters stand in parentheses or behind `WITH`, which makes no difference. -/
structure Step.Alike (step other : Step) : Prop where
  action : step.action = other.action
  target : step.target = other.target
  parameters : step.parameters = other.parameters

structure Trigger.Alike (trigger other : Trigger) : Prop where
  name : trigger.name = other.name
  steps : List.Forall₂ Step.Alike trigger.steps other.steps

structure Behaviour.Alike (behaviour other : Behaviour) : Prop where
  name : behaviour.name = other.name
  decorators : behaviour.decorators = other.decorators
  properties : behaviour.properties = other.properties
  triggers : List.Forall₂ Trigger.Alike behaviour.triggers other.triggers

/-- The stats and the abilities may be split into parts. -/
structure Agent.Alike (agent other : Agent) : Prop where
  name : agent.name = other.name
  tags : agent.tags = other.tags
  stats : agent.stats = other.stats
  abilities : List.Forall₂ Behaviour.Alike agent.abilities other.abilities

structure Weapon.Alike (weapon other : Weapon) : Prop where
  name : weapon.name = other.name
  tags : weapon.tags = other.tags
  properties : weapon.properties = other.properties

inductive Section.Alike : Section → Section → Prop
  | config (properties : List Property) : Alike (.config properties) (.config properties)
  | economy (properties : List Property) : Alike (.economy properties) (.economy properties)
  | match (properties : List Property) : Alike (.match properties) (.match properties)
  | agents {blocks others : List Agent} (h : List.Forall₂ Agent.Alike blocks others) :
      Alike (.agents blocks) (.agents others)
  | weapons {blocks others : List Weapon} (h : List.Forall₂ Weapon.Alike blocks others) :
      Alike (.weapons blocks) (.weapons others)
  | statusEffects {blocks others : List Behaviour} (h : List.Forall₂ Behaviour.Alike blocks others) :
      Alike (.statusEffects blocks) (.statusEffects others)
  /-- Teams, sites and callouts may be split into parts. -/
  | map (name : String) {items others : List MapItem}
      (hteams : items.flatMap MapItem.teamGroups = others.flatMap MapItem.teamGroups)
      (hsites : items.flatMap MapItem.siteGroups = others.flatMap MapItem.siteGroups)
      (hcallouts : items.flatMap MapItem.calloutValues = others.flatMap MapItem.calloutValues) :
      Alike (.map name items) (.map name others)

structure Document.Alike (document other : Document) : Prop where
  name : document.name = other.name
  sections : List.Forall₂ Section.Alike document.sections other.sections

/-! ## Relatives of one document -/

/-- Elements of two lists are related if they are related to the same elements. -/
theorem forall₂_transfer {α β γ : Type} {R : α → β → Prop} {A : α → γ → Prop} {S : γ → β → Prop}
    {as : List α} {bs : List β} {cs : List γ} (h : List.Forall₂ A as cs)
    (hR : List.Forall₂ R as bs) (hS : ∀ a b c, A a c → R a b → S c b) : List.Forall₂ S cs bs := by
  induction h generalizing bs with
  | nil =>
    cases hR
    exact .nil
  | cons ha _ ih =>
    cases hR with
    | cons hab hrest => exact .cons (hS _ _ _ ha hab) (ih hrest)

theorem Step.Alike.refl (step : Step) : step.Alike step := ⟨rfl, rfl, rfl⟩

theorem Step.Alike.cross {step other third : Step} (h : step.Alike other) (h' : step.Alike third) :
    other.Alike third where
  action := h.action ▸ h'.action
  target := h.target ▸ h'.target
  parameters := h.parameters ▸ h'.parameters

theorem Trigger.Alike.refl (trigger : Trigger) : trigger.Alike trigger :=
  ⟨rfl, List.forall₂_same.mpr fun step _ => .refl step⟩

theorem Trigger.Alike.cross {trigger other third : Trigger} (h : trigger.Alike other)
    (h' : trigger.Alike third) : other.Alike third where
  name := h.name ▸ h'.name
  steps := forall₂_transfer h.steps h'.steps fun _ _ _ ha hb => ha.cross hb

theorem Behaviour.Alike.refl (behaviour : Behaviour) : behaviour.Alike behaviour :=
  ⟨rfl, rfl, rfl, List.forall₂_same.mpr fun trigger _ => .refl trigger⟩

theorem Behaviour.Alike.cross {behaviour other third : Behaviour} (h : behaviour.Alike other)
    (h' : behaviour.Alike third) : other.Alike third where
  name := h.name ▸ h'.name
  decorators := h.decorators ▸ h'.decorators
  properties := h.properties ▸ h'.properties
  triggers := forall₂_transfer h.triggers h'.triggers fun _ _ _ ha hb => ha.cross hb

theorem Agent.Alike.refl (agent : Agent) : agent.Alike agent :=
  ⟨rfl, rfl, rfl, List.forall₂_same.mpr fun ability _ => .refl ability⟩

theorem Agent.Alike.cross {agent other third : Agent} (h : agent.Alike other)
    (h' : agent.Alike third) : other.Alike third where
  name := h.name ▸ h'.name
  tags := h.tags ▸ h'.tags
  stats := h.stats ▸ h'.stats
  abilities := forall₂_transfer h.abilities h'.abilities fun _ _ _ ha hb => ha.cross hb

theorem Weapon.Alike.refl (weapon : Weapon) : weapon.Alike weapon := ⟨rfl, rfl, rfl⟩

theorem Weapon.Alike.cross {weapon other third : Weapon} (h : weapon.Alike other)
    (h' : weapon.Alike third) : other.Alike third where
  name := h.name ▸ h'.name
  tags := h.tags ▸ h'.tags
  properties := h.properties ▸ h'.properties

theorem Section.Alike.refl (part : Section) : part.Alike part := by
  cases part with
  | config => exact .config _
  | economy => exact .economy _
  | «match» => exact .match _
  | agents => exact .agents (List.forall₂_same.mpr fun agent _ => .refl agent)
  | weapons => exact .weapons (List.forall₂_same.mpr fun weapon _ => .refl weapon)
  | statusEffects => exact .statusEffects (List.forall₂_same.mpr fun effect _ => .refl effect)
  | map name => exact .map name rfl rfl rfl

theorem Section.Alike.cross {part other third : Section} (h : part.Alike other)
    (h' : part.Alike third) : other.Alike third := by
  cases h with
  | config | economy | «match» => exact h'
  | agents h =>
    cases h' with
    | agents h' => exact .agents (forall₂_transfer h h' fun _ _ _ ha hb => ha.cross hb)
  | weapons h =>
    cases h' with
    | weapons h' => exact .weapons (forall₂_transfer h h' fun _ _ _ ha hb => ha.cross hb)
  | statusEffects h =>
    cases h' with
    | statusEffects h' => exact .statusEffects (forall₂_transfer h h' fun _ _ _ ha hb => ha.cross hb)
  | map name hteams hsites hcallouts =>
    cases h' with
    | map _ hteams' hsites' hcallouts' =>
      exact .map name (hteams ▸ hteams') (hsites ▸ hsites') (hcallouts ▸ hcallouts')

theorem Document.Alike.refl (document : Document) : document.Alike document :=
  ⟨rfl, List.forall₂_same.mpr fun part _ => .refl part⟩

theorem Document.Alike.cross {document other third : Document} (h : document.Alike other)
    (h' : document.Alike third) : other.Alike third where
  name := h.name ▸ h'.name
  sections := forall₂_transfer h.sections h'.sections fun _ _ _ ha hb => ha.cross hb

theorem Document.Alike.trans {document other third : Document} (h : document.Alike other)
    (h' : other.Alike third) : document.Alike third := (h.cross (.refl document)).cross h'

/-! ## Items that are alike -/

/-- An item, whatever the line of its trigger is. -/
inductive BehaviourItem.Alike : BehaviourItem → BehaviourItem → Prop
  | decorator (name : String) : Alike (.decorator name) (.decorator name)
  | property (property : Property) : Alike (.property property) (.property property)
  | trigger (name : String) (line line' : Nat) (steps : List Step) :
      Alike (.trigger ⟨name, line, steps⟩) (.trigger ⟨name, line', steps⟩)

theorem Behaviour.Alike.of_items (name : String) {items others : List BehaviourItem}
    (h : List.Forall₂ BehaviourItem.Alike items others) :
    Behaviour.Alike ⟨name, items⟩ ⟨name, others⟩ := by
  induction h with
  | nil => exact ⟨rfl, rfl, rfl, .nil⟩
  | cons hitem _ ih =>
    obtain ⟨-, hdecorators, hproperties, htriggers⟩ := ih
    cases hitem with
    | decorator name => exact ⟨rfl, congrArg (name :: ·) hdecorators, hproperties, htriggers⟩
    | property p => exact ⟨rfl, hdecorators, congrArg (p :: ·) hproperties, htriggers⟩
    | trigger name line line' steps =>
      have htrigger := Trigger.Alike.refl ⟨name, line, steps⟩
      exact ⟨rfl, hdecorators, hproperties, .cons ⟨rfl, htrigger.steps⟩ htriggers⟩

inductive AgentItem.Alike : AgentItem → AgentItem → Prop
  | tag (name : String) (atom : Atom) : Alike (.tag name atom) (.tag name atom)
  | stats (properties : List Property) : Alike (.stats properties) (.stats properties)
  | abilities {blocks others : List Behaviour} (h : List.Forall₂ Behaviour.Alike blocks others) :
      Alike (.abilities blocks) (.abilities others)

theorem Agent.Alike.of_items (name : String) {items others : List AgentItem}
    (h : List.Forall₂ AgentItem.Alike items others) :
    Agent.Alike ⟨name, items⟩ ⟨name, others⟩ := by
  induction h with
  | nil => exact ⟨rfl, rfl, rfl, .nil⟩
  | cons hitem _ ih =>
    obtain ⟨-, htags, hstats, habilities⟩ := ih
    cases hitem with
    | tag name atom => exact ⟨rfl, congrArg ((name, atom) :: ·) htags, hstats, habilities⟩
    | stats properties => exact ⟨rfl, htags, congrArg (properties ++ ·) hstats, habilities⟩
    | abilities hblocks => exact ⟨rfl, htags, hstats, List.rel_append hblocks habilities⟩

/-! ## What they stand for -/

variable {room : Nat} {datum : Json}

theorem Step.Alike.denotes {step other : Step} (h : step.Alike other)
    (hstep : step.Denotes room datum) : other.Denotes room datum := by
  obtain ⟨hparameters⟩ := hstep
  rw [h.parameters] at hparameters
  rw [h.action, h.target]
  exact .object hparameters

theorem Trigger.Alike.denotes {trigger other : Trigger} (h : trigger.Alike other)
    {pipeline : String × Json} (htrigger : trigger.Denotes room pipeline) :
    other.Denotes room pipeline := by
  obtain ⟨hsteps⟩ := htrigger
  rw [h.name]
  exact .pipeline (forall₂_transfer h.steps hsteps fun _ _ _ ha => ha.denotes)

theorem Behaviour.Alike.denotes {behaviour other : Behaviour} (h : behaviour.Alike other)
    {owner : Owner} (hbehaviour : behaviour.Denotes room owner datum) :
    other.Denotes room owner datum := by
  obtain ⟨hproperties, hknown, hpipelines, htriggers⟩ := hbehaviour
  rw [h.properties] at hproperties
  have hothers := forall₂_transfer h.triggers hpipelines fun _ _ _ ha => ha.denotes
  have hnames : other.triggers.map (·.name) = behaviour.triggers.map (·.name) :=
    (Trigger.Denotes.names hothers).symm.trans (Trigger.Denotes.names hpipelines)
  have hknown' : ∀ trigger ∈ other.triggers, trigger.name ∈ owner.triggers := by
    intro trigger hmem
    have hname := List.mem_map_of_mem (f := Trigger.name) hmem
    rw [hnames] at hname
    obtain ⟨alike, halike, hsame⟩ := List.mem_map.mp hname
    exact hsame ▸ hknown alike halike
  rw [h.name, h.decorators]
  exact .object hproperties hknown' hothers htriggers

theorem Agent.Alike.denotes {agent other : Agent} (h : agent.Alike other)
    (hagent : agent.Denotes room datum) : other.Denotes room datum := by
  obtain ⟨htags, hstats, habilities⟩ := hagent
  rw [h.tags] at htags
  rw [h.stats] at hstats
  rw [h.name]
  exact .object htags hstats
    (forall₂_transfer h.abilities habilities fun _ _ _ ha => ha.denotes)

theorem Weapon.Alike.denotes {weapon other : Weapon} (h : weapon.Alike other)
    (hweapon : weapon.Denotes room datum) : other.Denotes room datum := by
  obtain ⟨htags, hwritten, hproperties⟩ := hweapon
  rw [h.tags] at htags
  rw [h.properties] at hwritten
  rw [h.name]
  exact .object htags hwritten hproperties

namespace Section.Alike

variable {part other : Section}

theorem denotes (h : part.Alike other) (hpart : part.Denotes room datum) :
    other.Denotes room datum := by
  cases h with
  | config | economy | «match» => exact hpart
  | agents h =>
    cases hpart with
    | agents hblocks => exact .agents (forall₂_transfer h hblocks fun _ _ _ ha => ha.denotes)
  | weapons h =>
    cases hpart with
    | weapons hblocks => exact .weapons (forall₂_transfer h hblocks fun _ _ _ ha => ha.denotes)
  | statusEffects h =>
    cases hpart with
    | statusEffects hblocks =>
      exact .statusEffects (forall₂_transfer h hblocks fun _ _ _ ha => ha.denotes)
  | map name hteams hsites hcallouts =>
    cases hpart with
    | map hteamData hsiteData hcalloutData =>
      exact .map (hteams ▸ hteamData) (hsites ▸ hsiteData) (hcallouts ▸ hcalloutData)

theorem key (h : part.Alike other) : part.key = other.key := by
  cases h <;> rfl

end Section.Alike

namespace Document.Alike

variable {document other : Document}

theorem denotes (h : document.Alike other) (hdocument : document.Denotes room datum) :
    other.Denotes room datum := by
  obtain ⟨hsections⟩ := hdocument
  have hkeys : document.sections.map Section.key = other.sections.map Section.key := by
    have hsame := h.sections
    generalize document.sections = sections, other.sections = others at hsame
    induction hsame with
    | nil => rfl
    | cons hpart _ ih => rw [List.map_cons, List.map_cons, hpart.key, ih]
  rw [sectionFields, h.name, hkeys]
  exact .game (forall₂_transfer h.sections hsections fun _ _ _ ha => ha.denotes)

/-- A source of a document that is alike compiles to the same game. -/
theorem compile (h : document.Alike other) {limits : Limits} {source source' : String}
    (hparse : Document.parse source = .ok document) (hparse' : Document.parse source' = .ok other)
    {game : Game} (hgame : compile limits source = .ok game) : compile limits source' = .ok game := by
  obtain ⟨_, he, hdatum, hname, hsections⟩ := compile_eq_ok_iff.mp hgame
  cases hparse.symm.trans he
  refine compile_eq_ok_iff.mpr ⟨other, hparse', h.denotes hdatum, ?_, ?_⟩
  · rw [← h.name, hname]
  · rw [← h.sections.length_eq, hsections]

end Document.Alike

end GameScript.Config
