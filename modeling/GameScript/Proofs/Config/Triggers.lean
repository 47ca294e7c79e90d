import GameScript.Proofs.Config.Rearrangement
import GameScript.Proofs.Config.Standing

/-! # Which triggers are accepted

A document is checked part by part. The first trigger that does not exist is what is reported; if all
of them exist, each ability or effect has the pipelines of its own triggers. -/

namespace GameScript.Config

open Blueprint (LaidOut)

/-! ## What is wrong first -/

/-- What a step ends with if the given error is the first there is. A list that nests too deeply may
end it before. -/
inductive Judged {α : Type} : Option Error → Except Error α → Prop
  | deep {first : Option Error} : Judged first (.error .tooDeep)
  | fine (a : α) : Judged none (.ok a)
  | faulty (error : Error) : Judged (some error) (.error error)

namespace Judged

variable {α β γ : Type} {first second : Option Error} {x : Except Error α}

/-- Of two steps the first one that fails counts. -/
theorem bind {f : α → Except Error β} (h : Judged first x)
    (hf : ∀ a, x = .ok a → Judged second (f a)) : Judged (first.or second) (x >>= f) := by
  cases h with
  | deep => exact .deep
  | fine a => exact hf a rfl
  | faulty error => exact .faulty error

theorem map (h : Judged first x) (f : α → β) : Judged first (x >>= fun a => pure (f a)) := by
  have hall := h.bind fun a _ => fine (f a)
  rwa [Option.or_none] at hall

theorem mapM {f : γ → Except Error β} {error? : γ → Option Error} {parts : List γ}
    (h : ∀ part ∈ parts, Judged (error? part) (f part)) :
    Judged (parts.findSome? error?) (parts.mapM f) := by
  induction parts with
  | nil => exact fine []
  | cons part parts ih =>
    obtain ⟨hpart, hparts⟩ := List.forall_mem_cons.mp h
    rw [List.mapM_cons]
    have hall := hpart.bind fun b _ => (ih hparts).map (b :: ·)
    cases he : error? part <;> simpa [List.findSome?_cons, he] using hall

theorem foldlM {f : β → γ → Except Error β} {error? : γ → Option Error} {parts : List γ}
    (h : ∀ part ∈ parts, ∀ b, Judged (error? part) (f b part)) (b : β) :
    Judged (parts.findSome? error?) (parts.foldlM f b) := by
  induction parts generalizing b with
  | nil => exact fine b
  | cons part parts ih =>
    obtain ⟨hpart, hparts⟩ := List.forall_mem_cons.mp h
    rw [List.foldlM_cons]
    have hall := (hpart b).bind fun b _ => ih hparts b
    cases he : error? part <;> simpa [List.findSome?_cons, he] using hall

end Judged

/-- All literals of these values stand for something. -/
def Convertible (values : List Value) : Prop :=
  ∀ value ∈ values, ∀ literal ∈ value.literals, ∃ datum, literal.value = .ok datum

theorem Convertible.mono {values values' : List Value} (h : Convertible values)
    (hsub : values' ⊆ values) : Convertible values' := fun value hvalue => h value (hsub hvalue)

/-- Without triggers only the nesting of lists can be wrong. -/
theorem Blames.judged {α : Type} {room : Nat} {values : List Value} {x : Except Error α}
    (h : Blames room values [] x) (hliterals : Convertible values) : Judged none x := by
  cases x with
  | ok a => exact .fine a
  | error error =>
    cases h with
    | tooDeep => exact .deep
    | literal hmem hl hvalue =>
      obtain ⟨_, hdatum⟩ := hliterals _ hmem _ hl
      cases hvalue.symm.trans hdatum
    | trigger hmem => cases hmem

/-! ## The first trigger that does not exist -/

/-- The error of a trigger that does not exist. -/
def Owner.complaint? (owner : Owner) (trigger : Trigger) : Option Error :=
  if trigger.name ∈ owner.triggers then none
  else some (.unknownTrigger owner trigger.name trigger.line)

theorem Owner.complaint?_eq_none {owner : Owner} {trigger : Trigger} :
    owner.complaint? trigger = none ↔ trigger.name ∈ owner.triggers := by
  simp [complaint?]

theorem Owner.complaint?_eq_some {owner : Owner} {trigger : Trigger} {error : Error} :
    owner.complaint? trigger = some error ↔ trigger.name ∉ owner.triggers ∧
      .unknownTrigger owner trigger.name trigger.line = error := by
  simp [complaint?]

/-- The error of the first trigger that does not exist. -/
def Behaviour.complaint? (owner : Owner) (behaviour : Behaviour) : Option Error :=
  behaviour.triggers.findSome? owner.complaint?

def AgentItem.complaint? (item : AgentItem) : Option Error :=
  item.behaviours.findSome? (Behaviour.complaint? .ability)

def Section.complaint? (part : Section) : Option Error :=
  part.behaviours.findSome? fun found => found.2.complaint? found.1

def Document.complaint? (document : Document) : Option Error :=
  document.triggers.findSome? fun found => found.1.complaint? found.2

theorem findSome?_flatMap {α β γ : Type} (f : α → List β) (g : β → Option γ) (as : List α) :
    (as.flatMap f).findSome? g = as.findSome? fun a => (f a).findSome? g := by
  induction as with
  | nil => rfl
  | cons a as ih =>
    rw [List.flatMap_cons, List.findSome?_append, ih, List.findSome?_cons]
    cases (f a).findSome? g <;> rfl

theorem Document.complaint?_eq (document : Document) :
    document.complaint? = document.sections.findSome? Section.complaint? := by
  simp only [complaint?, triggers, behaviours, findSome?_flatMap, List.findSome?_map]
  rfl

variable {room : Nat}

theorem judged_triggerFields {owner : Owner} {items : List BehaviourItem}
    {compiled : List CompiledItem} (h : List.Forall₂ (BehaviourItem.Compiles room) items compiled) :
    Judged ((items.flatMap BehaviourItem.triggers).findSome? owner.complaint?)
      (triggerFields owner compiled) := by
  unfold triggerFields
  generalize ([] : Fields Json) = fields
  induction h generalizing fields with
  | nil => exact .fine fields
  | @cons item _ _ _ hitem _ ih =>
    cases hitem with
    | decorator => exact ih fields
    | property => exact ih fields
    | @trigger t pipeline hpipeline =>
      cases hpipeline
      simp only [List.foldlM_cons, List.flatMap_cons, BehaviourItem.triggers, List.singleton_append,
        List.findSome?_cons, Owner.complaint?]
      by_cases hname : t.name ∈ owner.triggers
      · rw [if_pos hname, if_pos hname]
        exact ih _
      · rw [if_neg hname, if_neg hname]
        exact .faulty _

theorem judged_behaviour {owner : Owner} {behaviour : Behaviour}
    (hliterals : Convertible behaviour.values) :
    Judged (behaviour.complaint? owner) (behaviour.toJson room owner) := by
  have hitems : Blames room behaviour.values [] (behaviour.items.mapM (BehaviourItem.compile room)) :=
    .mapM fun item hitem => (compile_isOf room hitem).mono (fun _ _ => trivial) fun _ => id
  have hall : Judged (none.or (behaviour.complaint? owner)) (behaviour.toJson room owner) := by
    refine (hitems.judged hliterals).bind fun compiled hcompiled => ?_
    have hcompiles := mapM_eq_ok_iff.mp hcompiled
    rw [Behaviour.complaint?, Behaviour.triggers_eq]
    exact (judged_triggerFields (hcompiles.imp fun _ _ => BehaviourItem.compile_eq_ok_iff.mp)).map _
  exact hall

theorem judged_behaviours {owner : Owner} {blocks : List Behaviour}
    (hliterals : Convertible (blocks.flatMap Behaviour.values)) :
    Judged (blocks.findSome? (Behaviour.complaint? owner)) (blocks.mapM (Behaviour.toJson room owner)) :=
  .mapM fun _ hblock => judged_behaviour <|
    hliterals.mono fun _ => List.mem_flatMap_of_mem hblock

theorem judged_agentItem {item : AgentItem} (hliterals : Convertible item.values)
    (parts : AgentParts) : Judged item.complaint? (parts.add room item) := by
  cases item with
  | tag => exact (blames_agentItem room parts _).judged hliterals
  | stats => exact (blames_agentItem room parts _).judged hliterals
  | abilities blocks => exact (judged_behaviours hliterals).map _

theorem judged_section {part : Section} (hliterals : Convertible part.values) :
    Judged part.complaint? (part.toJson room) := by
  cases part with
  | config => exact (blames_section room _).judged hliterals
  | economy => exact (blames_section room _).judged hliterals
  | «match» => exact (blames_section room _).judged hliterals
  | weapons => exact (blames_section room _).judged hliterals
  | map => exact (blames_section room _).judged hliterals
  | statusEffects blocks =>
    have hfirst : Section.complaint? (.statusEffects blocks) =
        blocks.findSome? (Behaviour.complaint? .effect) := List.findSome?_map
    rw [hfirst]
    exact (judged_behaviours hliterals).map _
  | agents blocks =>
    have hagents : Judged (blocks.findSome? fun agent => agent.items.findSome? AgentItem.complaint?)
        (blocks.mapM (Agent.toJson room)) := .mapM fun agent hagent => by
      refine Judged.map (.foldlM (fun item hitem parts => judged_agentItem ?_ parts) _) _
      refine hliterals.mono fun value hvalue => ?_
      exact List.mem_flatMap_of_mem hagent (List.mem_flatMap_of_mem hitem hvalue)
    have hfirst : Section.complaint? (.agents blocks) =
        blocks.findSome? fun agent => agent.items.findSome? AgentItem.complaint? := by
      simp only [Section.complaint?, Section.behaviours, findSome?_flatMap, List.findSome?_map]
      rfl
    rw [hfirst]
    exact hagents.map _

/-- The first trigger of a document that does not exist decides about its data. -/
theorem judged_document {document : Document} (hliterals : Convertible document.values) :
    Judged document.complaint? (document.toJson room) := by
  rw [Document.complaint?_eq]
  refine Judged.map (.mapM fun part hpart => Judged.map (judged_section ?_) _) _
  exact hliterals.mono fun _ => List.mem_flatMap_of_mem hpart

/-! ## The pipelines of an ability or effect -/

/-- A trigger behind which no other one has its name. -/
def Behaviour.LastOf (behaviour : Behaviour) (trigger : Trigger) : Prop :=
  ∃ before after, behaviour.triggers = before ++ trigger :: after ∧
    trigger.name ∉ after.map Trigger.name

/-- What a pipeline stands for: all of its steps, in order. -/
def Trigger.Runs (room : Nat) (trigger : Trigger) (steps : List Json) : Prop :=
  List.Forall₂ (fun (step : Step) datum => step.toJson room = .ok datum) trigger.steps steps

/-- The members of an object hold the pipelines of an ability or effect: those of the triggers that are
used and no others. Of triggers with one name the last counts. -/
structure Behaviour.HeldBy (room : Nat) (behaviour : Behaviour) (members : Fields Json) : Prop where
  cast : ∀ trigger, behaviour.LastOf trigger → trigger.name = "CAST" →
    ∃ steps, trigger.Runs room steps ∧ Fields.get? members "cast" = some (.array steps)
  noCast : "CAST" ∉ behaviour.triggers.map Trigger.name → "cast" ∉ Fields.names members
  events : ∃ events : Fields Json,
    Fields.names events = ((behaviour.triggers.map Trigger.name).eraseDups).filter (· ≠ "CAST") ∧
    (∀ trigger, behaviour.LastOf trigger → trigger.name ≠ "CAST" →
      ∃ steps, trigger.Runs room steps ∧ Fields.get? events trigger.name = some (.array steps)) ∧
    (events ≠ [] → Fields.get? members "events" = some (.object events)) ∧
    (events = [] → "events" ∉ Fields.names members)

/-- The pipeline of the last trigger of a name that is not the name of a cast. -/
theorem Behaviour.HeldBy.event {room : Nat} {behaviour : Behaviour} {members : Fields Json}
    (h : behaviour.HeldBy room members) {trigger : Trigger} (hlast : behaviour.LastOf trigger)
    (hname : trigger.name ≠ "CAST") : ∃ events steps,
      Fields.get? members "events" = some (.object events) ∧
      Fields.names events = ((behaviour.triggers.map Trigger.name).eraseDups).filter (· ≠ "CAST") ∧
      trigger.Runs room steps ∧ Fields.get? events trigger.name = some (.array steps) := by
  obtain ⟨events, hnames, hpipelines, hsome, -⟩ := h.events
  obtain ⟨steps, hsteps, hget⟩ := hpipelines trigger hlast hname
  have hne : events ≠ [] := by
    rintro rfl
    cases hget
  exact ⟨events, steps, hsome hne, hnames, hsteps, hget⟩

theorem Trigger.Runs.eq {room : Nat} {trigger : Trigger} {steps steps' : List Json}
    (h : trigger.Runs room steps) (h' : trigger.steps.mapM (Step.toJson room) = .ok steps') :
    steps = steps' :=
  Except.ok.inj ((mapM_eq_ok_iff.mpr h).symm.trans h')

/-- The last trigger of its name is the one whose pipeline is kept. -/
theorem Behaviour.LastOf.kept {behaviour : Behaviour} {trigger : Trigger}
    (h : behaviour.LastOf trigger) {pipelines triggers : Fields Json}
    (hpipelines : List.Forall₂ (Trigger.Denotes room) behaviour.triggers pipelines)
    (htriggers : Fields.Gathers pipelines triggers) :
    ∃ steps, trigger.Runs room steps ∧ Fields.get? triggers trigger.name = some (.array steps) := by
  obtain ⟨before, after, he, hlast⟩ := h
  rw [he] at hpipelines
  obtain ⟨first, rest, -, hrest, rfl⟩ := forall₂_append_left_iff.mp hpipelines
  obtain ⟨_, others, ⟨hsteps⟩, hothers, rfl⟩ := List.forall₂_cons_left_iff.mp hrest
  refine ⟨_, hsteps.imp fun _ _ => Step.toJson_eq_ok_iff.mpr, ?_⟩
  rw [htriggers.values]
  exact Fields.get?_last (Trigger.Denotes.names hothers ▸ hlast)

theorem Behaviour.Denotes.held {owner : Owner} {behaviour : Behaviour} {datum : Json}
    (h : behaviour.Denotes room owner datum) :
    ∃ members, datum = .object members ∧ behaviour.HeldBy room members := by
  obtain @⟨properties, pipelines, triggers, -, -, hpipelines, htriggers⟩ := h
  have hnames := Trigger.Denotes.names hpipelines
  refine ⟨_, rfl, ?_, ?_, ?_⟩
  · intro trigger hlast hcast
    obtain ⟨steps, hsteps, hkept⟩ := hlast.kept hpipelines htriggers
    rw [hcast] at hkept
    refine ⟨steps, hsteps, ?_⟩
    simp [hkept, Fields.get?]
  · intro hno
    have hnone : Fields.get? triggers "CAST" = none := by
      refine Fields.get?_eq_none ?_
      rwa [htriggers.places, List.mem_eraseDups, hnames]
    rw [hnone]
    simp only [Fields.names]
    split <;> simp
  · refine ⟨triggers.filter (·.1 ≠ "CAST"), ?_, ?_, ?_, ?_⟩
    · rw [Fields.names_filter (fun name => decide (name ≠ "CAST")), htriggers.places, hnames]
    · intro trigger hlast hcast
      obtain ⟨steps, hsteps, hkept⟩ := hlast.kept hpipelines htriggers
      refine ⟨steps, hsteps, ?_⟩
      have hkeep : decide (trigger.name ≠ "CAST") = true := decide_eq_true hcast
      rw [← hkept]
      exact @Fields.get?_filter _ _ _ (fun name => decide (name ≠ "CAST")) _ hkeep triggers
    · intro hsome
      rw [if_neg (by simpa using hsome)]
      cases Fields.get? triggers "CAST" <;> simp [Fields.get?]
    · intro hnone
      rw [if_pos (by rw [hnone]; rfl)]
      cases Fields.get? triggers "CAST" <;> simp [Fields.names]

/-! ## Compiling -/

theorem Document.complaint?_eq_none {document : Document} :
    document.complaint? = none ↔
      ∀ found ∈ document.triggers, found.2.name ∈ found.1.triggers := by
  simp only [complaint?, List.findSome?_eq_none_iff, Owner.complaint?_eq_none]

/-- A trigger that does not exist is the first one if all triggers in front of it exist. -/
theorem Document.complaint?_of_first {document : Document} {before after : List (Owner × Trigger)}
    {owner : Owner} {trigger : Trigger}
    (h : document.triggers = before ++ (owner, trigger) :: after)
    (hbefore : ∀ found ∈ before, found.2.name ∈ found.1.triggers)
    (hname : trigger.name ∉ owner.triggers) :
    document.complaint? = some (.unknownTrigger owner trigger.name trigger.line) := by
  refine List.findSome?_eq_some_iff.mpr ⟨before, (owner, trigger), after, h, ?_, fun found hfound => ?_⟩
  · exact Owner.complaint?_eq_some.mpr ⟨hname, rfl⟩
  · exact Owner.complaint?_eq_none.mpr (hbefore found hfound)

/-- Each ability or effect of a document that stands for something stands for something itself. -/
theorem Document.Denotes.behaviour {document : Document} {datum : Json}
    (h : document.Denotes room datum) {found : Owner × Behaviour}
    (hfound : found ∈ document.behaviours) : ∃ object, found.2.Denotes room found.1 object := by
  obtain ⟨hsections⟩ := h
  obtain ⟨part, hpart, hfound⟩ := List.mem_flatMap.mp hfound
  obtain ⟨_, -, hdatum⟩ := exists_of_mem_left hsections hpart
  cases hdatum with
  | config | economy | «match» | weapons | map => cases hfound
  | agents hblocks =>
    obtain ⟨agent, hagent, hfound⟩ := List.mem_flatMap.mp hfound
    obtain ⟨item, hitem, hfound⟩ := List.mem_flatMap.mp hfound
    obtain ⟨behaviour, hbehaviour, rfl⟩ := List.mem_map.mp hfound
    obtain ⟨_, -, ⟨-, -, habilities⟩⟩ := exists_of_mem_left hblocks hagent
    obtain ⟨object, -, hobject⟩ := exists_of_mem_left habilities
      (List.mem_flatMap_of_mem hitem hbehaviour)
    exact ⟨object, hobject⟩
  | statusEffects hblocks =>
    obtain ⟨behaviour, hbehaviour, rfl⟩ := List.mem_map.mp hfound
    obtain ⟨object, -, hobject⟩ := exists_of_mem_left hblocks hbehaviour
    exact ⟨object, hobject⟩

section Compile

variable {limits : Limits} {source : String} {document : Document}

theorem compile_of_parse (h : Document.parse source = .ok document) :
    compile limits source = document.toJson limits.listing >>= fun datum =>
      pure ⟨document.name, document.sections.length, datum⟩ := by
  rw [compile, h]
  rfl

theorem judged_compile (hparse : Document.parse source = .ok document)
    (hliterals : Convertible document.values) :
    Judged document.complaint? (compile limits source) := by
  rw [compile_of_parse hparse]
  exact (judged_document hliterals).map _

/-- Compiling ends early only where a list does nest too deeply. -/
theorem deep_of_tooDeep (hparse : Document.parse source = .ok document)
    (hliterals : Convertible document.values) (h : compile limits source = .error .tooDeep) :
    ∃ value ∈ document.values, limits.listing < value.depth := by
  have hblames := blames_document limits.listing document
  rw [compile_of_parse hparse] at h
  cases hdatum : document.toJson limits.listing with
  | ok datum =>
    rw [hdatum] at h
    cases h
  | error error =>
    rw [hdatum] at h hblames
    cases h
    cases hblames with
    | tooDeep hmem hdeep => exact ⟨_, hmem, hdeep⟩
    | literal hmem hl hvalue =>
      obtain ⟨_, hok⟩ := hliterals _ hmem _ hl
      cases hvalue.symm.trans hok

end Compile

/-- A source whose literals all stand for something fails on one of its lines exactly if one of its
triggers does not exist. What is reported is the first of these, with the line on which its name
stands. Otherwise each ability or effect has the pipelines of its own triggers. A list that nests too
deeply may end all this. -/
theorem compile_triggers {limits : Limits} {source : String} {document : Document}
    (hparse : Document.parse source = .ok document) (hliterals : Convertible document.values) :
    (compile limits source = .error .tooDeep ∧
      ∃ value ∈ document.values, limits.listing < value.depth) ∨
    (((∃ error, compile limits source = .error error ∧ error.line?.isSome) ↔
        ∃ found ∈ document.triggers, found.2.name ∉ found.1.triggers) ∧
      (∀ before owner trigger after, document.triggers = before ++ (owner, trigger) :: after →
        (∀ found ∈ before, found.2.name ∈ found.1.triggers) → trigger.name ∉ owner.triggers →
          compile limits source = .error (.unknownTrigger owner trigger.name trigger.line)) ∧
      Standing .start source.toList (document.triggers.map (·.2)) ∧
      ((∀ found ∈ document.triggers, found.2.name ∈ found.1.triggers) →
        ∃ game, compile limits source = .ok game ∧ document.Denotes limits.listing game.datum ∧
          ∀ found ∈ document.behaviours, ∃ members,
            found.2.toJson limits.listing found.1 = .ok (.object members) ∧
              found.2.HeldBy limits.listing members)) := by
  have hstanding := parse_standing hparse
  have hjudged : Judged document.complaint? (compile limits source) :=
    judged_compile hparse hliterals
  generalize hfirst : document.complaint? = first at hjudged
  generalize hresult : compile limits source = result at hjudged ⊢
  cases hjudged with
  | deep => exact .inl ⟨rfl, deep_of_tooDeep hparse hliterals hresult⟩
  | fine game =>
    have hknown := Document.complaint?_eq_none.mp hfirst
    refine .inr ⟨⟨?_, ?_⟩, fun before owner trigger after he hbefore hname => ?_, hstanding,
      fun _ => ⟨game, rfl, ?_⟩⟩
    · rintro ⟨error, ⟨⟩, -⟩
    · rintro ⟨found, hmem, hname⟩
      exact absurd (hknown found hmem) hname
    · cases hfirst.symm.trans (Document.complaint?_of_first he hbefore hname)
    · obtain ⟨_, hparse', hdatum, -⟩ := compile_eq_ok_iff.mp hresult
      cases hparse.symm.trans hparse'
      refine ⟨hdatum, fun found hfound => ?_⟩
      obtain ⟨object, hobject⟩ := hdatum.behaviour hfound
      obtain ⟨members, rfl, hheld⟩ := hobject.held
      exact ⟨members, Behaviour.toJson_eq_ok_iff.mpr hobject, hheld⟩
  | faulty error =>
    obtain ⟨found, hmem, hfound⟩ := List.exists_of_findSome?_eq_some hfirst
    obtain ⟨hname, hreported⟩ := Owner.complaint?_eq_some.mp hfound
    refine .inr ⟨⟨fun _ => ⟨found, hmem, hname⟩, fun _ => ⟨error, rfl, ?_⟩⟩,
      fun before owner trigger after he hbefore hname => ?_, hstanding,
      fun hknown => absurd (hknown found hmem) hname⟩
    · rw [← hreported]
      rfl
    · cases hfirst.symm.trans (Document.complaint?_of_first he hbefore hname)
      rfl

/-! ## An ability with two casts -/

/-- A step without parameters. -/
def plainStep (action target : String) : Step := ⟨action, target, [], []⟩

def plainStepData (action target : String) : Json :=
  .object [("action", .string action), ("target", .string target), ("parameters", .object [])]

/-- An ability with two triggers of one name. -/
def dash : Behaviour :=
  ⟨"dash", [.trigger ⟨"CAST", 2, [plainStep "push" "foe"]⟩,
    .trigger ⟨"ON_KILL", 2, [plainStep "heal" "me"]⟩,
    .trigger ⟨"CAST", 3, [plainStep "run" "me", plainStep "mark" "foe"]⟩]⟩

/-- An effect without a cast. -/
def burn : Behaviour := ⟨"burn", [.trigger ⟨"ON_TICK", 4, [plainStep "hurt" "me"]⟩]⟩

theorem dash_lastCast : dash.LastOf ⟨"CAST", 3, [plainStep "run" "me", plainStep "mark" "foe"]⟩ :=
  ⟨[_, _], [], rfl, by simp⟩

theorem dash_lastKill : dash.LastOf ⟨"ON_KILL", 2, [plainStep "heal" "me"]⟩ :=
  ⟨[_], [_], rfl, by simp⟩

def duel : Document := ⟨"duel", [.agents [⟨"a", [.abilities [dash]]⟩], .statusEffects [burn]]⟩

def duelSource : String :=
  "GAME duel[AGENTS[AGENT a[ABILITIES[ABILITY dash[\nCAST=>push->foe ON_KILL=>heal->me\n" ++
    "CAST=>run->me=>mark->foe]]]]\nSTATUS_EFFECTS[EFFECT burn[ON_TICK=>hurt->me]]]"

theorem duel_behaviours : duel.behaviours = [(.ability, dash), (.effect, burn)] := rfl

theorem duel_parsed : Document.parse duelSource = .ok duel := by cbv

/-! ## A trigger behind nested lists -/

/-- An empty list in so many other lists. -/
def nestedList : Nat → Value
  | 0 => .list []
  | n + 1 => .list [nestedList n]

def nestedWords : Nat → List Word
  | 0 => Blueprint.enclosed []
  | n + 1 => Blueprint.enclosed (nestedWords n)

theorem nestedList_spelled (n : Nat) : (nestedList n).Spelled (nestedWords n) := by
  induction n with
  | zero => exact .list .nil
  | succ n ih =>
    exact Value.Spelled.list (.cons ih .nil)

theorem nestedList_literals (n : Nat) : (nestedList n).literals = [] := by
  induction n with
  | zero => rfl
  | succ n ih => simp [nestedList, Value.literals, valueLiterals, ih]

theorem nestedList_tooDeep {room n : Nat} (h : room ≤ n) :
    (nestedList n).toJson room = .error .tooDeep := by
  induction n generalizing room with
  | zero =>
    obtain rfl : room = 0 := Nat.le_zero.mp h
    rfl
  | succ n ih =>
    cases room with
    | zero => rfl
    | succ room =>
      have hinner : (nestedList n).toJson room = .error .tooDeep := ih (Nat.le_of_succ_le_succ h)
      simp [nestedList, Value.toJson, valuesToJson, hinner, bind, Except.bind]

/-- The name of a trigger to which no effect reacts. -/
def castName : Blueprint.Name := { first := 'C', rest := ['A', 'S', 'T'] }

/-- An effect with that trigger, behind a property whose value is a list in other lists. -/
def loneCast (depth : Nat) : Document :=
  ⟨health.text, [.config [⟨health.text, nestedList depth⟩],
    .statusEffects [⟨health.text, [.trigger ⟨castName.text, 1, [⟨health.text, health.text, [], []⟩]⟩]⟩]]⟩

def loneCastWords (depth : Nat) : List Word :=
  .word .game :: .name health :: Blueprint.enclosed
    (.word .config :: Blueprint.enclosed (.name health :: .mark .has :: nestedWords depth) ++
      .word .statusEffects :: Blueprint.enclosed (.word .effect :: .name health :: Blueprint.enclosed
        [.name castName, .mark .then, .name health, .mark .onto, .name health]))

/-- For depth 0 this is
"GAME hp [ CONFIG [ hp :: [ ] ] STATUS_EFFECTS [ EFFECT hp [ CAST => hp -> hp ] ] ] ". -/
def loneCastSource (depth : Nat) : String := String.ofList (spacedOut (loneCastWords depth))

theorem loneCast_spelled (depth : Nat) : (loneCast depth).Spelled (loneCastWords depth) := by
  have hconfig : Section.Spelled (.config [⟨health.text, nestedList depth⟩]) _ :=
    .config ⟨[_], .cons (.property health (nestedList_spelled depth)) .nil, rfl⟩
  have hstep : Step.Spelled ⟨health.text, health.text, [], []⟩ _ := .step health health .none .none
  have heffect : Behaviour.Spelled .effect ⟨health.text, _⟩ _ :=
    .behaviour health ⟨[_], .cons (.trigger castName 1 (.last hstep)) .nil, rfl⟩
  have heffects := Section.Spelled.statusEffects ⟨[_], .cons heffect .nil, rfl⟩
  have hgame := Document.Spelled.document health ⟨[_, _], .cons hconfig (.cons heffects .nil), rfl⟩
  simpa [loneCast, loneCastWords] using hgame

/-- The values of an ability or effect are those of its properties and of its steps. -/
theorem Behaviour.mem_values {behaviour : Behaviour} {value : Value} (h : value ∈ behaviour.values) :
    value ∈ propertyValues behaviour.properties ∨ ∃ trigger ∈ behaviour.triggers,
      ∃ step ∈ trigger.steps, value ∈ propertyValues step.parameters := by
  obtain ⟨item, hitem, hvalue⟩ := List.mem_flatMap.mp h
  cases item with
  | decorator => cases hvalue
  | property p =>
    obtain rfl := List.mem_singleton.mp hvalue
    exact .inl (List.mem_map_of_mem (List.mem_filterMap.mpr ⟨_, hitem, rfl⟩))
  | trigger t =>
    obtain ⟨step, hstep, hvalue⟩ := List.mem_flatMap.mp hvalue
    refine .inr ⟨t, List.mem_filterMap.mpr ⟨_, hitem, rfl⟩, step, hstep, ?_⟩
    rwa [propertyValues, Step.parameters, List.map_append]

theorem loneCast_parsed (depth : Nat) :
    ∃ document trigger effects, Document.parse (loneCastSource depth) = .ok document ∧
      (∀ value ∈ document.values, value = nestedList depth) ∧
      document.triggers = [(.effect, trigger)] ∧ trigger.name = "CAST" ∧
      document.sections = [.config [⟨health.text, nestedList depth⟩], .statusEffects effects] := by
  have hlaid : LaidOut (loneCastWords depth) (loneCastSource depth).toList :=
    laidOut_source String.toList_ofList
  obtain ⟨⟨name, sections⟩, hparse, -, hsections⟩ := parse_spelled (loneCast_spelled depth) hlaid
  obtain ⟨_, _, ⟨⟩, heffects, rfl⟩ := List.forall₂_cons_left_iff.mp hsections
  obtain ⟨_, _, halike, ⟨⟩, rfl⟩ := List.forall₂_cons_left_iff.mp heffects
  cases halike with
  | statusEffects hblocks =>
    obtain ⟨effect, _, heffect, ⟨⟩, rfl⟩ := List.forall₂_cons_left_iff.mp hblocks
    obtain ⟨trigger, _, htrigger, ⟨⟩, htriggers⟩ := List.forall₂_cons_left_iff.mp heffect.triggers
    obtain ⟨step, _, hstep, ⟨⟩, hsteps⟩ := List.forall₂_cons_left_iff.mp htrigger.steps
    refine ⟨_, trigger, [effect], hparse, fun value hvalue => ?_, ?_, htrigger.name.symm, rfl⟩
    · obtain rfl | hvalue : value = nestedList depth ∨ value ∈ effect.values := by
        simpa [Document.values, Section.values, propertyValues] using hvalue
      · rfl
      · -- the effect has neither properties nor parameters
        have hproperties : effect.properties = [] := heffect.properties.symm
        have hparameters : step.parameters = [] := hstep.parameters.symm
        rcases Behaviour.mem_values hvalue with hvalue | ⟨_, hmem, _, hmem', hvalue⟩
        · rw [hproperties] at hvalue
          cases hvalue
        · rw [htriggers, List.mem_singleton] at hmem
          rw [hmem, hsteps, List.mem_singleton] at hmem'
          rw [hmem', hparameters] at hvalue
          cases hvalue
    · simp [Document.triggers, Document.behaviours, Section.behaviours, htriggers]

theorem nestedList_convertible {values : List Value} {depth : Nat}
    (h : ∀ value ∈ values, value = nestedList depth) : Convertible values := by
  intro value hvalue literal hliteral
  rw [h value hvalue, nestedList_literals] at hliteral
  cases hliteral

theorem cast_unknown : "CAST" ∉ Owner.effect.triggers := by decide

/-- Behind a list that nests too deeply, the trigger is not reported, nor anything else with a line. -/
theorem loneCast_unlocated : ∃ document,
    Document.parse (loneCastSource 2000) = .ok document ∧ Convertible document.values ∧
      (∃ found ∈ document.triggers, found.2.name ∉ found.1.triggers) ∧
      ¬ ∃ error, compile .standard (loneCastSource 2000) = .error error ∧ error.line?.isSome := by
  obtain ⟨document, trigger, effects, hparse, hvalues, htriggers, hname, hsections⟩ :=
    loneCast_parsed 2000
  refine ⟨document, hparse, nestedList_convertible hvalues, ⟨(.effect, trigger), ?_, ?_⟩, ?_⟩
  · rw [htriggers]
    exact List.mem_singleton_self _
  · exact hname ▸ cast_unknown
  · have hdeep : (nestedList 2000).toJson Limits.standard.listing = .error .tooDeep :=
      nestedList_tooDeep (by decide)
    have hdatum : document.toJson Limits.standard.listing = .error .tooDeep := by
      simp [Document.toJson, hsections, List.mapM_cons, Section.toJson, propertyFields,
        Property.toField, hdeep, bind, Except.bind]
    have hcompile : compile .standard (loneCastSource 2000) = .error .tooDeep := by
      rw [compile_of_parse hparse, hdatum]
      rfl
    rintro ⟨error, herror, hline⟩
    cases hcompile.symm.trans herror
    cases hline

/-- The last triggers of their names are held. Behind an empty list, a trigger that does not exist is
reported. -/
theorem triggers_held_and_reported :
    (∃ ability effect events, (∃ game, compile .standard duelSource = .ok game) ∧
      dash.toJson Limits.standard.listing .ability = .ok (.object ability) ∧
      Fields.get? ability "cast" =
        some (.array [plainStepData "run" "me", plainStepData "mark" "foe"]) ∧
      Fields.get? ability "events" = some (.object events) ∧ Fields.names events = ["ON_KILL"] ∧
      Fields.get? events "ON_KILL" = some (.array [plainStepData "heal" "me"]) ∧
      burn.toJson Limits.standard.listing .effect = .ok (.object effect) ∧
      "cast" ∉ Fields.names effect) ∧
    ∃ line, compile .standard (loneCastSource 0) = .error (.unknownTrigger .effect "CAST" line) := by
  constructor
  · have hconvertible : Convertible duel.values := nofun
    obtain ⟨-, value, hvalue, -⟩ | ⟨-, -, -, hheld⟩ :=
      @compile_triggers .standard _ _ duel_parsed hconvertible
    · cases hvalue
    · obtain ⟨game, hgame, -, hbehaviours⟩ := hheld (by decide)
      rw [duel_behaviours] at hbehaviours
      obtain ⟨ability, hdash, hability⟩ := hbehaviours (.ability, dash) (by simp)
      obtain ⟨effect, hburn, heffect⟩ := hbehaviours (.effect, burn) (by simp)
      obtain ⟨cast, hruns, hcast⟩ := hability.cast _ dash_lastCast rfl
      obtain ⟨events, kills, hevents, hnames, hkills, hkill⟩ :=
        hability.event dash_lastKill (by decide)
      obtain rfl := hruns.eq rfl
      obtain rfl := hkills.eq rfl
      exact ⟨ability, effect, events, ⟨game, hgame⟩, hdash, hcast, hevents, hnames.trans (by decide),
        hkill, hburn, heffect.noCast (by decide)⟩
  · obtain ⟨document, trigger, _, hparse, hvalues, htriggers, hname, -⟩ := loneCast_parsed 0
    obtain ⟨-, value, hvalue, hdeep⟩ | ⟨-, hfirst, -⟩ :=
      @compile_triggers .standard _ _ hparse (nestedList_convertible hvalues)
    · rw [hvalues value hvalue] at hdeep
      exact absurd hdeep (by decide)
    · have hreported := hfirst [] .effect trigger [] htriggers nofun (hname ▸ cast_unknown)
      exact ⟨trigger.line, hname ▸ hreported⟩

end GameScript.Config
