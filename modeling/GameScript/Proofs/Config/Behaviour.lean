import GameScript.Proofs.Config.Values

/-! # Steps and behaviour read back

What is read of a step, an ability or an effect has the datum that was meant. A pipeline keeps its
steps in order, and the items of each kind go to a place of their own. -/

namespace GameScript.Config.Blueprint

section Rules

variable {rest : List Token} {room : Nat}

/-! ## Steps -/

theorem Consumes.arguments (arguments : Option (List (Property room)))
    (hrest : Next Expected.afterArguments rest) :
    Consumes Read.arguments (Step.argumentTokens arguments) rest
      (propertyFields room · = .ok (Fields.latest ((arguments.getD []).map Property.field))) := by
  cases arguments with
  | none => exact .elsewhere (hrest.ne (by decide)) (.pure rfl)
  | some arguments =>
    have hstart : Starts [.name, .mark .closeParen]
        (joined (arguments.map Property.tokens) ++ [.mark .closeParen] ++ rest) :=
      starts_joined (by decide) (fun property _ => (opens_property property (by decide)).begins) rest
    rw [Step.argumentTokens, commas_eq]
    refine .here rfl (.pastStart hstart ?_)
    refine (Consumes.list (by decide) (fun property _ => (opens_property property (by decide)).begins)
      (fun property _ rest hrest => ?_) hrest).mono fun found hfound => propertyFields_of hfound
    exact .property property (hrest.mono (by decide))

theorem Consumes.modifiers (modifiers : Option (List (Property room)))
    (hrest : Next Expected.afterStep rest) :
    Consumes Read.modifiers (Step.modifierTokens modifiers) rest
      (propertyFields room · = .ok (Fields.latest ((modifiers.getD []).map Property.field))) := by
  cases modifiers with
  | none => exact .elsewhere (hrest.ne (by decide)) (.pure rfl)
  | some modifiers =>
    refine .here rfl (.past (.cons (by decide) rfl) ?_)
    exact .properties modifiers hrest

theorem next_modifiers {expected : Expected} (modifiers : Option (List (Property room)))
    (hrest : Next expected rest) (hwith : .word .with ∈ expected) :
    Next expected (Step.modifierTokens modifiers ++ rest) := by
  cases modifiers with
  | none => exact hrest
  | some modifiers => exact .cons hwith rfl

theorem next_arguments {expected : Expected} (arguments : Option (List (Property room)))
    (hrest : Next expected rest) (hopen : .mark .openParen ∈ expected) :
    Next expected (Step.argumentTokens arguments ++ rest) := by
  cases arguments with
  | none => exact hrest
  | some arguments => exact .cons hopen rfl

theorem Consumes.step (step : Step room) (hrest : Next Expected.afterStep rest) :
    Consumes Read.step step.tokens rest (·.toJson room = .ok step.datum) := by
  have hmodifiers : Next Expected.afterArguments (Step.modifierTokens step.modifiers ++ rest) :=
    next_modifiers _ (hrest.mono (by decide)) (by decide)
  have htarget : Next Expected.afterTarget
      (Step.argumentTokens step.arguments ++ Step.modifierTokens step.modifiers ++ rest) := by
    rw [List.append_assoc]
    exact next_arguments _ (hmodifiers.mono (by decide)) (by decide)
  refine .head (.name step.action (.cons (by decide) rfl)) fun action haction => ?_
  refine .pastExpected rfl (.name (by decide)) ?_
  refine .head (.name step.target htarget) fun target htarget => ?_
  refine .bind (.arguments step.arguments hmodifiers) fun arguments harguments => ?_
  refine .map (.modifiers step.modifiers hrest) fun modifiers hmodifiers => .pure ?_
  have hfields := Fields.putAll_append [] ((step.arguments.getD []).map Property.field)
    ((step.modifiers.getD []).map Property.field)
  rw [Fields.putAll_nil, Fields.putAll_nil, ← Fields.putAll_latest] at hfields
  rw [Step.toJson, harguments, hmodifiers, haction, htarget, Step.datum, objectOf, List.map_append,
    hfields]
  rfl

theorem Consumes.stepsFrom (first : Step room) (more : List (Step room))
    (hrest : Next Expected.taggedItems rest) {fuel : Nat} (hfuel : more.length < fuel)
    (done : List Config.Step) :
    Consumes (Read.stepsFrom fuel done)
      (first.tokens ++ more.flatMap fun step => .mark .then :: step.tokens) rest
      fun found => ∃ new, found = done.reverse ++ new ∧ List.Forall₂
        (fun step found => found.toJson room = .ok step.datum) (first :: more) new := by
  obtain ⟨fuel, rfl⟩ : ∃ n, fuel = n + 1 := ⟨fuel - 1, by omega⟩
  induction more generalizing first done fuel with
  | nil =>
    refine .bind (.step first (hrest.mono (by decide))) fun step hstep => ?_
    exact .elsewhere (hrest.ne (by decide)) (.pure ⟨[step], by simp, .cons hstep .nil⟩)
  | cons second more ih =>
    obtain ⟨fuel, rfl⟩ : ∃ n, fuel = n + 1 := ⟨fuel - 1, by simp at hfuel; omega⟩
    refine .bind (.step first (.cons (by decide) rfl)) fun step hstep => ?_
    refine .here rfl (.past (.name (by decide)) ?_)
    refine (ih second (step :: done) fuel (by simpa using hfuel)).mono ?_
    rintro found ⟨new, rfl, hnew⟩
    exact ⟨step :: new, by simp, .cons hstep hnew⟩

/-! ## Items -/

section Items

variable {owner : Owner}

/-- An item of an ability or effect, and what it is compiled to. The line of a trigger is the only
thing that the blueprint does not know. -/
inductive Compiled : BehaviourItem room owner → CompiledItem → Prop
  | decorator (name : Name) : Compiled (.decorator name) (.decorator name.text)
  | property (property : Property room) :
      Compiled (.property property) (.property property.key.text property.value.datum)
  | trigger (name : Name) (isKnown : name.text ∈ owner.triggers) (first : Step room)
      (more : List (Step room)) (line : Nat) :
      Compiled (.trigger name isKnown first more)
        (.trigger name.text line (.array ((first :: more).map Step.datum)))

theorem Consumes.behaviourItem (item : BehaviourItem room owner)
    (hrest : Next Expected.taggedItems rest) :
    Consumes Read.behaviourItem item.tokens rest fun found =>
      ∃ compiled, found.compile room = .ok compiled ∧ Compiled item compiled := by
  cases item with
  | decorator name =>
    refine .here rfl (.past (.name (by decide)) ?_)
    refine .map (.name name hrest) fun found hfound => .pure ⟨_, rfl, ?_⟩
    rw [hfound]
    exact .decorator name
  | property property =>
    refine .elsewhere nofun (.head (.expect rfl (.cons (by decide) rfl)) fun lexeme hlexeme => ?_)
    refine .elsewhere nofun (.map (.valueAfterHas property.value (hrest.mono (by decide))) ?_)
    refine fun found hfound => .pure ⟨_, ?_, .property property⟩
    rw [BehaviourItem.compile, hfound room property.fits, hlexeme.2]
    rfl
  | trigger name isKnown first more =>
    refine .elsewhere nofun (.head (.expect rfl (.cons (by decide) rfl)) fun lexeme hlexeme => ?_)
    refine .here rfl (.past (.name (by decide)) ?_)
    refine .look .remaining fun left hleft => ?_
    have hsteps : ∀ step ∈ more,
        Opens [.mark .then] .closeBracket (.mark .then :: step.tokens) :=
      fun step _ => .cons (by decide) (by decide) rfl
    have hfuel : more.length < left + 1 := by
      have hmore := length_le_flatMap hsteps
      simp only [List.length_append] at hleft
      omega
    refine .map (.stepsFrom first more hrest hfuel []) ?_
    rintro found ⟨new, rfl, hnew⟩
    refine .pure ⟨_, ?_, .trigger name isKnown first more lexeme.position.line⟩
    rw [BehaviourItem.compile, hlexeme.2]
    dsimp only
    rw [mapM_ok hnew]
    rfl

theorem opens_behaviourItem (item : BehaviourItem room owner) :
    Opens Expected.taggedItems .closeBracket item.tokens := by
  cases item with
  | decorator => exact .cons (by decide) (by decide) rfl
  | property property => exact opens_property property (by decide)
  | trigger => exact .name (by decide)

/-! ## Abilities and effects -/

variable {items : List (BehaviourItem room owner)} {compiled : List CompiledItem}

theorem mapM_compile {found : List Config.BehaviourItem}
    (h : List.Forall₂ (fun item found =>
      ∃ compiled, found.compile room = .ok compiled ∧ Compiled item compiled) items found) :
    ∃ compiled, found.mapM (BehaviourItem.compile room) = .ok compiled ∧
      List.Forall₂ Compiled items compiled := by
  induction h with
  | nil => exact ⟨[], rfl, .nil⟩
  | cons hitem _ ih =>
    obtain ⟨first, hfirst, hc⟩ := hitem
    obtain ⟨rest, hrest, hall⟩ := ih
    refine ⟨first :: rest, ?_, .cons hc hall⟩
    rw [List.mapM_cons, hfirst, hrest]
    rfl

theorem filterMap_compiled {β : Type} {f : CompiledItem → Option β}
    {g : BehaviourItem room owner → Option β} (h : List.Forall₂ Compiled items compiled)
    (hfg : ∀ item c, Compiled item c → f c = g item) :
    compiled.filterMap f = items.filterMap g := by
  induction h with
  | nil => rfl
  | cons hitem _ ih => rw [List.filterMap_cons, List.filterMap_cons, hfg _ _ hitem, ih]

theorem triggerFields_compiled (h : List.Forall₂ Compiled items compiled) :
    triggerFields owner compiled =
      .ok (Fields.latest (items.filterMap BehaviourItem.pipeline?)) := by
  rw [← Fields.putAll_nil, triggerFields]
  generalize ([] : Fields Json) = fields
  induction h generalizing fields with
  | nil => rfl
  | cons hitem _ ih =>
    cases hitem with
    | decorator => exact ih fields
    | property => exact ih fields
    | trigger name isKnown first more line =>
      rw [List.foldlM_cons]
      simp only [if_pos isKnown]
      exact ih _

theorem Consumes.behaviour (behaviour : Behaviour room owner)
    (hrest : Next (Expected.blocks (keywordOf owner)) rest) :
    Consumes (Read.behaviour (keywordOf owner)) behaviour.tokens rest
      (·.toJson room owner = .ok behaviour.datum) := by
  refine .titled rfl behaviour.name (.cons (by decide) rfl)
    (Consumes.block (by decide) (fun item _ => opens_behaviourItem item)
      (fun item _ rest hrest => .behaviourItem item hrest) hrest) fun found hfound => ?_
  obtain ⟨compiled, hcompiled, hall⟩ := mapM_compile hfound
  rw [Behaviour.toJson, hcompiled]
  show (triggerFields owner compiled >>= _) = _
  rw [triggerFields_compiled hall]
  dsimp only [Bind.bind, Except.bind]
  rw [filterMap_compiled hall (g := BehaviourItem.decorator?) fun item c h => by cases h <;> rfl,
    filterMap_compiled hall (g := BehaviourItem.property?) fun item c h => by cases h <;> rfl,
    Fields.putAll_nil]
  rfl

theorem opens_behaviour (behaviour : Behaviour room owner) :
    Opens (Expected.blocks (keywordOf owner)) .closeBracket behaviour.tokens :=
  .cons List.mem_cons_self nofun rfl

end Items

end Rules

end GameScript.Config.Blueprint
