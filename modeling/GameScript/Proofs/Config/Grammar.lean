import GameScript.Proofs.Config.Arrangement
import GameScript.Proofs.Config.Spelling

/-! # Spelled documents read back

What is spelled by words is read from every source in which the words are laid out. Only the lines of
triggers depend on the source. -/

namespace GameScript.Config

open Blueprint (Begins Consumes LaidOut Lexical Name Next Opens Starts)

variable {rest : List Word} {words : List Word}

/-! ## Rows -/

section Rows

variable {α β : Type} {item : Read α} {items : List β} {P : β → α → Prop} {expected after : Expected}

/-- Related elements in pairs. -/
theorem forall₂_pairs {γ : Type} {R : β → γ → Prop} {rows : List γ} (h : List.Forall₂ R items rows) :
    ∃ pairs : List (β × γ), pairs.map Prod.fst = items ∧ pairs.map Prod.snd = rows ∧
      ∀ pair ∈ pairs, R pair.1 pair.2 := by
  obtain ⟨hlength, hpairs⟩ := List.forall₂_iff_zip.mp h
  exact ⟨items.zip rows, List.map_fst_zip (Nat.le_of_eq hlength),
    List.map_snd_zip (Nat.le_of_eq hlength.symm), fun _ => hpairs⟩

theorem BlockSpelled.read {Spelled : β → List Word → Prop} (h : BlockSpelled Spelled items words)
    (hclosing : Expected.closeBracket ∈ expected)
    (hopens : ∀ b row, Spelled b row → Opens expected .closeBracket row)
    (hitem : ∀ b row, Spelled b row → ∀ rest, Next expected rest → Consumes item row rest (P b))
    (hafter : Next after rest) :
    Consumes (Read.block expected after item) words rest (List.Forall₂ P items) := by
  obtain ⟨rows, hrows, rfl⟩ := h
  obtain ⟨pairs, rfl, rfl, hpairs⟩ := forall₂_pairs hrows
  rw [← List.flatMap_def]
  refine (Consumes.block hclosing (fun pair hpair => hopens _ _ (hpairs pair hpair))
    (fun pair hpair => hitem _ _ (hpairs pair hpair)) hafter).mono fun found hfound => ?_
  exact List.forall₂_map_left_iff.mpr hfound

theorem BlockSpelled.next {Spelled : β → List Word → Prop} (h : BlockSpelled Spelled items words)
    (hopen : Expected.openBracket ∈ expected) (rest : List Word) : Next expected (words ++ rest) := by
  obtain ⟨rows, -, rfl⟩ := h
  exact .cons hopen rfl

/-- Rows between commas are read one by one. -/
theorem joined_read {closing : Mark} {rows : List (List Word)} (hcomma : closing ≠ .comma)
    (h : List.Forall₂ (fun b row => Begins expected closing row ∧ ∀ rest,
      Next [.mark .comma, .mark closing] rest → Consumes item row rest (P b)) items rows)
    (hafter : Next after rest) :
    Consumes (Read.list item closing expected after) (Blueprint.joined rows ++ [.mark closing]) rest
      (List.Forall₂ P items) := by
  obtain ⟨pairs, rfl, rfl, hpairs⟩ := forall₂_pairs h
  refine (Consumes.list hcomma (fun pair hpair => (hpairs pair hpair).1)
    (fun pair hpair => (hpairs pair hpair).2) hafter).mono fun found hfound => ?_
  exact List.forall₂_map_left_iff.mpr hfound

theorem joined_starts {closing : Mark} {rows : List (List Word)} (hclosing : .mark closing ∈ expected)
    (h : ∀ row ∈ rows, Begins expected closing row) (rest : List Word) :
    Starts expected (Blueprint.joined rows ++ [.mark closing] ++ rest) := by
  have hstart := Blueprint.starts_joined hclosing h rest
  rwa [List.map_id'] at hstart

theorem ListSpelled.starts {Spelled : β → List Word → Prop} (h : ListSpelled Spelled items words)
    {closing : Mark} (hclosing : .mark closing ∈ expected)
    (hbegins : ∀ b row, Spelled b row → Begins expected closing row) (rest : List Word) :
    Starts expected (words ++ [.mark closing] ++ rest) := by
  obtain ⟨rows, hrows, rfl⟩ := h
  obtain ⟨pairs, rfl, rfl, hpairs⟩ := forall₂_pairs hrows
  refine joined_starts hclosing (fun row hrow => ?_) rest
  obtain ⟨pair, hpair, rfl⟩ := List.mem_map.mp hrow
  exact hbegins _ _ (hpairs pair hpair)

theorem ListSpelled.read {Spelled : β → List Word → Prop} (h : ListSpelled Spelled items words)
    {closing : Mark} (hcomma : closing ≠ .comma)
    (hbegins : ∀ b row, Spelled b row → Begins expected closing row)
    (hitem : ∀ b row, Spelled b row → ∀ rest, Next [.mark .comma, .mark closing] rest →
      Consumes item row rest (P b)) (hafter : Next after rest) :
    Consumes (Read.list item closing expected after) (words ++ [.mark closing]) rest
      (List.Forall₂ P items) := by
  obtain ⟨rows, hrows, rfl⟩ := h
  exact joined_read hcomma (hrows.imp fun b row hrow => ⟨hbegins b row hrow, hitem b row hrow⟩) hafter

theorem eq_of_forall₂ {found : List β} (h : List.Forall₂ (· = ·) items found) : items = found := by
  rwa [List.forall₂_eq_eq_eq] at h

end Rows

/-! ## Values and properties -/

theorem Value.Spelled.begins {value : Value} (h : value.Spelled words) :
    Begins Expected.values .closeBracket words := by
  have single {word : Word} (hmem : word.terminal ∈ Expected.values) (hnone : word.shadows = []) :
      Begins Expected.values .closeBracket [word] := by
    have hclosing : Terminal.mark .closeBracket ∉ Expected.values := by decide
    exact (Opens.cons hmem (fun he => hclosing (he ▸ hmem)) hnone).begins
  cases h with
  | number | duration | percentage =>
    exact single (by simp [Word.terminal, Blueprint.numberTerminal, Expected.values]) rfl
  | quoted => exact single (by simp [Word.terminal, Expected.values]) rfl
  | flag h =>
    have hall : ∀ entry ∈ Blueprint.flags, Terminal.word entry.1 ∈ Expected.values := by decide
    exact single (hall _ h) rfl
  | word name => exact single (by simp [Word.terminal, Expected.values]) rfl
  | @bare keyword h =>
    have hflags : Expected.values.filterMap Lexeme.keyword? ⊆ Blueprint.flags.map (·.1) := by decide
    refine ⟨?_, _, _, rfl, by rintro ⟨⟩⟩
    rintro _ ⟨⟩
    refine ⟨by simp [Word.terminal, Expected.values], fun other hother hmem => ?_⟩
    obtain rfl : other = keyword := List.mem_singleton.mp hother
    exact h (hflags (List.mem_filterMap.mpr ⟨_, hmem, rfl⟩))
  | list => exact (Opens.cons (by decide) (by decide) rfl).begins

theorem ValuesSpelled.starts {values : List Value} {rows : List (List Word)}
    (h : ValuesSpelled values rows) (rest : List Word) :
    Starts Expected.listItems (Blueprint.joined rows ++ [.mark .closeBracket] ++ rest) := by
  refine joined_starts (by decide) ?_ rest
  intro row hrow
  induction rows generalizing values with
  | nil => cases hrow
  | cons first rows ih =>
    cases h with
    | cons hvalue hvalues =>
      rcases List.mem_cons.mp hrow with rfl | hrow
      · exact hvalue.begins.mono (by decide) (by decide)
      · exact ih hvalues hrow

/-- The value of a single word. -/
theorem read_simple {value : Value} {word : Word} {fuel : Nat} (hfuel : 1 ≤ fuel)
    (hopen : word.terminal ≠ Expected.openBracket)
    (hvalue : ∀ position, Read.simpleValue? ⟨word.terminal, String.ofList word.chars, position⟩ =
      some value) (hrest : Next Expected.afterValue rest) :
    Consumes (Read.value fuel) [word] rest (value = ·) := by
  obtain ⟨fuel, rfl⟩ : ∃ n, fuel = n + 1 := ⟨fuel - 1, by omega⟩
  refine .elsewhere (fun he => hopen (Option.some.inj he)) ?_
  refine .look .get fun reader hreader => ?_
  obtain ⟨⟨position, hnext⟩, -⟩ := hreader
  simp only [hnext, Option.bind_some, terminal_eq, chars_eq, hvalue position]
  exact .past hrest (.pure rfl)

mutual

theorem Value.Spelled.read {value : Value} {words rest : List Word} (h : value.Spelled words)
    {fuel : Nat} (hfuel : words.length ≤ fuel) (hrest : Next Expected.afterValue rest) :
    Consumes (Read.value fuel) words rest (value = ·) := by
  cases h with
  | number | duration | percentage =>
    refine read_simple hfuel nofun (fun position => ?_) hrest
    simp [Read.simpleValue?, Read.withoutUnit, Word.terminal, Word.chars, Blueprint.numberTerminal]
  | quoted => exact read_simple hfuel nofun (fun _ => rfl) hrest
  | flag h =>
    have hall : ∀ entry ∈ Blueprint.flags, ∀ text position,
        Read.simpleValue? ⟨.word entry.1, text, position⟩ = some (.flag entry.2) := by
      simp [Blueprint.flags, Read.simpleValue?]
    exact read_simple hfuel nofun (hall _ h _) hrest
  | word name => exact read_simple hfuel nofun (fun _ => rfl) hrest
  | bare =>
    refine read_simple hfuel nofun (fun position => ?_) hrest
    simp [Read.simpleValue?, Word.terminal, Word.chars]
  | @list items rows h =>
    obtain ⟨fuel, rfl⟩ : ∃ n, fuel = n + 1 := ⟨fuel - 1, by simp [Blueprint.enclosed] at hfuel; omega⟩
    have hrows : ∀ row ∈ rows, row.length ≤ fuel := by
      intro row hrow
      have hlength := Blueprint.length_le_joined hrow
      simp only [Blueprint.enclosed, List.length_cons, List.length_append] at hfuel
      omega
    refine .here rfl (.pastStart (h.starts rest) ?_)
    refine .map (joined_read (by decide) (h.read hrows) (hrest.mono (by decide))) ?_
    exact fun found hfound => .pure (congrArg Value.list (eq_of_forall₂ hfound))

theorem ValuesSpelled.read {values : List Value} {rows : List (List Word)} (h : ValuesSpelled values rows)
    {fuel : Nat} (hfuel : ∀ row ∈ rows, row.length ≤ fuel) :
    List.Forall₂ (fun value row => Begins Expected.values .closeBracket row ∧ ∀ rest,
      Next [.mark .comma, .mark .closeBracket] rest →
        Consumes (Read.value fuel) row rest (value = ·)) values rows := by
  cases h with
  | nil => exact .nil
  | cons hvalue hvalues =>
    obtain ⟨hrow, hrows⟩ := List.forall_mem_cons.mp hfuel
    exact .cons ⟨hvalue.begins, fun rest hrest => hvalue.read hrow (hrest.mono (by decide))⟩
      (hvalues.read hrows)

end

theorem Value.Spelled.readAfterHas {value : Value} (h : value.Spelled words)
    (hrest : Next Expected.afterValue rest) :
    Consumes Read.valueAfterHas (.mark .has :: words) rest (value = ·) := by
  refine .pastExpectedStart rfl (h.begins.starts rest) ?_
  refine .look .remaining fun left hleft => h.read ?_ hrest
  rw [List.length_append] at hleft
  omega

theorem Property.Spelled.opens {property : Property} (h : property.Spelled words)
    {expected : Expected} {closing : Mark} (hname : .name ∈ expected) :
    Opens expected closing words := by
  cases h
  exact .name hname

theorem Property.Spelled.read {property : Property} (h : property.Spelled words)
    (hrest : Next Expected.afterValue rest) : Consumes Read.property words rest (property = ·) := by
  obtain ⟨key, hvalue⟩ := h
  refine .head (.name key (.cons (by decide) rfl)) fun found hkey => ?_
  refine .map (hvalue.readAfterHas hrest) fun value hvalue => .pure ?_
  rw [hkey, hvalue]

theorem PropertiesSpelled.read {properties : List Property} (h : PropertiesSpelled properties words)
    {after : Expected} (hafter : Next after rest) :
    Consumes (Read.properties after) words rest (properties = ·) := by
  refine (BlockSpelled.read h (by decide) (fun _ _ hp => hp.opens (by decide))
    (fun _ _ hp rest hrest => hp.read (hrest.mono (by decide))) hafter).mono ?_
  exact fun _ => eq_of_forall₂

/-! ## Steps -/

theorem ArgumentsSpelled.read {arguments : List Property} (h : ArgumentsSpelled arguments words)
    (hrest : Next Expected.afterArguments rest) :
    Consumes Read.arguments words rest (arguments = ·) := by
  cases h with
  | none => exact .elsewhere (hrest.ne (by decide)) (.pure rfl)
  | some h =>
    refine .here rfl (.pastStart (h.starts (by decide) ?_ rest) ?_)
    · exact fun _ _ hp => (hp.opens (by decide)).begins
    refine (h.read (by decide) (fun _ _ hp => (hp.opens (by decide)).begins)
      (fun _ _ hp rest hrest => hp.read (hrest.mono (by decide))) hrest).mono ?_
    exact fun _ => eq_of_forall₂

theorem ModifiersSpelled.read {modifiers : List Property} (h : ModifiersSpelled modifiers words)
    (hrest : Next Expected.afterStep rest) :
    Consumes Read.modifiers words rest (modifiers = ·) := by
  cases h with
  | none => exact .elsewhere (hrest.ne (by decide)) (.pure rfl)
  | some h => exact .here rfl (.past (BlockSpelled.next h (by decide) rest) (h.read hrest))

theorem ModifiersSpelled.next {modifiers : List Property} (h : ModifiersSpelled modifiers words)
    {expected : Expected} (hwith : .word .with ∈ expected) (hrest : Next expected rest) :
    Next expected (words ++ rest) := by
  cases h with
  | none => exact hrest
  | some => exact .cons hwith rfl

theorem ArgumentsSpelled.next {arguments : List Property} (h : ArgumentsSpelled arguments words)
    {expected : Expected} (hopen : .mark .openParen ∈ expected) (hrest : Next expected rest) :
    Next expected (words ++ rest) := by
  cases h with
  | none => exact hrest
  | some => exact .cons hopen rfl

theorem Step.Spelled.read {step : Step} (h : step.Spelled words)
    (hrest : Next Expected.afterStep rest) : Consumes Read.step words rest (step = ·) := by
  obtain @⟨action, target, arguments, modifiers, taken, more, harguments, hmodifiers⟩ := h
  have hmore : Next Expected.afterArguments (more ++ rest) :=
    hmodifiers.next (by decide) (hrest.mono (by decide))
  have htarget : Next Expected.afterTarget (taken ++ more ++ rest) := by
    rw [List.append_assoc]
    exact harguments.next (by decide) (hmore.mono (by decide))
  refine .head (.name action (.cons (by decide) rfl)) fun first hfirst => ?_
  refine .pastExpected rfl (.name (by decide)) ?_
  refine .head (.name target htarget) fun second hsecond => ?_
  refine .bind (harguments.read hmore) fun arguments harguments => ?_
  refine .map (hmodifiers.read hrest) fun modifiers hmodifiers => .pure ?_
  rw [hfirst, hsecond, harguments, hmodifiers]

theorem StepsSpelled.length_le {steps : List Step} (h : StepsSpelled steps words) :
    steps.length ≤ words.length := by
  induction h with
  | last h =>
    cases h
    simp
  | next h _ ih =>
    cases h
    simp only [List.length_cons, List.length_append]
    omega

theorem StepsSpelled.next_names {steps : List Step} (h : StepsSpelled steps words) (rest : List Word) :
    Next Expected.names (words ++ rest) := by
  cases h with
  | last h | next h =>
    cases h
    exact .name (by decide)

theorem StepsSpelled.read {steps : List Step} (h : StepsSpelled steps words)
    (hrest : Next Expected.taggedItems rest) {fuel : Nat} (hfuel : steps.length ≤ fuel)
    (done : List Step) :
    Consumes (Read.stepsFrom fuel done) words rest (done.reverse ++ steps = ·) := by
  induction h generalizing fuel done with
  | last h =>
    obtain ⟨fuel, rfl⟩ : ∃ n, fuel = n + 1 := ⟨fuel - 1, by simp at hfuel; omega⟩
    refine .map (h.read (hrest.mono (by decide))) fun step hstep => ?_
    exact .elsewhere (hrest.ne (by decide)) (.pure (by simp [hstep]))
  | next h hsteps ih =>
    obtain ⟨fuel, rfl⟩ : ∃ n, fuel = n + 1 := ⟨fuel - 1, by simp at hfuel; omega⟩
    refine .bind (h.read (.cons (by decide) rfl)) fun step hstep => ?_
    refine .here rfl (.past (hsteps.next_names rest) ?_)
    refine (ih (by simpa using hfuel) (step :: done)).mono fun found hfound => ?_
    simpa [hstep] using hfound

/-! ## Abilities and effects -/

theorem BehaviourItem.Spelled.opens {item : BehaviourItem} (h : item.Spelled words) :
    Opens Expected.taggedItems .closeBracket words := by
  cases h with
  | decorator => exact .cons (by decide) nofun rfl
  | property h => exact h.opens (by decide)
  | trigger => exact .name (by decide)

theorem BehaviourItem.Spelled.read {item : BehaviourItem} (h : item.Spelled words)
    (hrest : Next Expected.taggedItems rest) :
    Consumes Read.behaviourItem words rest item.Alike := by
  cases h with
  | decorator name =>
    refine .here rfl (.past (.name (by decide)) ?_)
    refine .map (.name name hrest) fun found hfound => .pure ?_
    rw [hfound]
    exact .decorator name.text
  | property h =>
    obtain ⟨key, hvalue⟩ := h
    refine .elsewhere nofun (.head (.expect rfl (.cons (by decide) rfl)) fun lexeme hlexeme => ?_)
    refine .elsewhere nofun (.map (hvalue.readAfterHas (hrest.mono (by decide))) ?_)
    rintro value rfl
    refine .pure ?_
    rw [hlexeme.2]
    exact .property _
  | trigger name line h =>
    refine .elsewhere nofun (.head (.expect rfl (.cons (by decide) rfl)) fun lexeme hlexeme => ?_)
    refine .here rfl (.past (h.next_names rest) ?_)
    refine .look .remaining fun left hleft => ?_
    have hlength := h.length_le
    refine .map (h.read hrest ?_ []) ?_
    · rw [List.length_append] at hleft
      omega
    rintro steps rfl
    refine .pure ?_
    rw [hlexeme.2]
    exact .trigger ..

theorem Behaviour.Spelled.opens {keyword : Keyword} {behaviour : Behaviour}
    (h : behaviour.Spelled keyword words) :
    Opens (Expected.blocks keyword) .closeBracket words := by
  cases h
  exact .cons List.mem_cons_self nofun rfl

theorem Behaviour.Spelled.read {keyword : Keyword} {behaviour : Behaviour}
    (h : behaviour.Spelled keyword words) (hrest : Next (Expected.blocks keyword) rest) :
    Consumes (Read.behaviour keyword) words rest behaviour.Alike := by
  obtain ⟨name, hitems⟩ := h
  have hread := hitems.read (by decide) (fun _ _ hi => hi.opens) (fun _ _ hi _ hrest => hi.read hrest) hrest
  exact .titled rfl name (hitems.next (by decide) rest) hread fun _ => .of_items name.text

/-! ## Agents and weapons -/

theorem Atom.Spelled.read {atom : Atom} {word : Word} (h : atom.Spelled word)
    (hrest : Next Expected.afterAtom rest) : Consumes Read.atom [word] rest (atom = ·) := by
  refine .look .get fun reader hreader => ?_
  obtain ⟨⟨position, hnext⟩, -⟩ := hreader
  simp only [hnext]
  cases h with
  | name | quoted => exact .past hrest (.pure rfl)
  | bare | number =>
    refine .past hrest (.pure ?_)
    simp [Word.chars]

theorem Atom.Spelled.starts {atom : Atom} {word : Word} (h : atom.Spelled word) (rest : List Word) :
    Starts Expected.atoms (word :: rest) := by
  have hwords : ∀ keyword : Keyword, Terminal.word keyword ∉ Expected.atoms := by
    simp [Expected.atoms]
  rintro _ ⟨⟩
  refine ⟨?_, fun keyword _ => hwords keyword⟩
  cases h <;> simp [Word.terminal, Blueprint.numberTerminal, Expected.atoms]

theorem readTagRest (name : Name) {atom : Atom} {word : Word} (h : atom.Spelled word)
    (hrest : Next Expected.afterAtom rest) :
    Consumes Read.tagRest [.name name, .mark .has, word] rest ((name.text, atom) = ·) := by
  refine .head (.name name (.cons (by decide) rfl)) fun title htitle => ?_
  refine .pastExpectedStart rfl (h.starts rest) ?_
  refine .map (h.read hrest) fun found hfound => .pure ?_
  rw [htitle, hfound]

theorem AgentItem.Spelled.opens {item : AgentItem} (h : item.Spelled words) :
    Opens Expected.agentItems .closeBracket words := by
  cases h <;> exact .cons (by decide) nofun rfl

theorem AgentItem.Spelled.read {item : AgentItem} (h : item.Spelled words)
    (hrest : Next Expected.agentItems rest) : Consumes Read.agentItem words rest item.Alike := by
  refine .look .peek fun found hfound => ?_
  subst hfound
  cases h with
  | tag name h =>
    refine .past (.name (by decide)) ?_
    refine .map (readTagRest name h (hrest.mono (by decide))) ?_
    rintro _ rfl
    exact .pure (.tag ..)
  | stats h =>
    refine .past (BlockSpelled.next h (by decide) rest) ?_
    refine .map (h.read hrest) ?_
    rintro _ rfl
    exact .pure (.stats _)
  | abilities h =>
    refine .past (h.next (by decide) rest) ?_
    refine .map (h.read (by decide) (fun _ _ hb => hb.opens)
      (fun _ _ hb _ hrest => hb.read hrest) hrest) fun found hfound => ?_
    exact .pure (.abilities hfound)

theorem Agent.Spelled.opens {agent : Agent} (h : agent.Spelled words) :
    Opens (Expected.blocks .agent) .closeBracket words := by
  cases h
  exact .cons (by decide) nofun rfl

theorem Agent.Spelled.read {agent : Agent} (h : agent.Spelled words)
    (hrest : Next (Expected.blocks .agent) rest) :
    Consumes Read.agent words rest agent.Alike := by
  obtain ⟨name, hitems⟩ := h
  have hread := hitems.read (by decide) (fun _ _ hi => hi.opens) (fun _ _ hi _ hrest => hi.read hrest) hrest
  exact .titled rfl name (hitems.next (by decide) rest) hread fun _ => .of_items name.text

theorem WeaponItem.Spelled.opens {item : WeaponItem} (h : item.Spelled words) :
    Opens Expected.taggedItems .closeBracket words := by
  cases h with
  | tag => exact .cons (by decide) nofun rfl
  | property h => exact h.opens (by decide)
  | nested => exact .name (by decide)

theorem WeaponItem.Spelled.read {item : WeaponItem} (h : item.Spelled words)
    (hrest : Next Expected.taggedItems rest) : Consumes Read.weaponItem words rest (item = ·) := by
  cases h with
  | tag name h =>
    refine .here rfl (.past (.name (by decide)) ?_)
    refine .map (readTagRest name h (hrest.mono (by decide))) ?_
    rintro _ rfl
    exact .pure rfl
  | property h =>
    obtain ⟨key, hvalue⟩ := h
    refine .elsewhere nofun (.head (.name key (.cons (by decide) rfl)) fun title htitle => ?_)
    refine .elsewhere nofun (.map (hvalue.readAfterHas (hrest.mono (by decide))) ?_)
    rintro _ rfl
    exact .pure (by rw [htitle])
  | nested key h =>
    have hread := PropertiesSpelled.read h hrest
    obtain ⟨rows, -, rfl⟩ := h
    refine .elsewhere nofun (.head (.name key (.cons (by decide) rfl)) fun title htitle => ?_)
    refine .here rfl (.map hread ?_)
    rintro _ rfl
    exact .pure (by rw [htitle])

theorem Weapon.Spelled.opens {weapon : Weapon} (h : weapon.Spelled words) :
    Opens (Expected.blocks .weapon) .closeBracket words := by
  cases h
  exact .cons (by decide) nofun rfl

theorem Weapon.Spelled.read {weapon : Weapon} (h : weapon.Spelled words)
    (hrest : Next (Expected.blocks .weapon) rest) :
    Consumes Read.weapon words rest (weapon = ·) := by
  obtain ⟨name, hitems⟩ := h
  have hread := hitems.read (by decide) (fun _ _ hi => hi.opens) (fun _ _ hi _ hrest => hi.read hrest) hrest
  refine .titled rfl name (hitems.next (by decide) rest) hread fun found hfound => ?_
  rw [eq_of_forall₂ hfound]

/-! ## Maps -/

theorem Group.Spelled.opens {keyword : Keyword} {group : Group} (h : group.Spelled keyword words) :
    Opens (Expected.blocks keyword) .closeBracket words := by
  cases h
  exact .cons List.mem_cons_self nofun rfl

theorem Group.Spelled.read {keyword : Keyword} {group : Group} (h : group.Spelled keyword words)
    (hrest : Next (Expected.blocks keyword) rest) :
    Consumes (Read.group keyword) words rest (group = ·) := by
  obtain ⟨name, hproperties⟩ := h
  refine .titled rfl name (BlockSpelled.next hproperties (by decide) rest) (hproperties.read hrest) ?_
  rintro _ rfl
  rfl

theorem readCallouts {values : List Value} (h : ListSpelled Value.Spelled values words)
    (hrest : Next Expected.afterList rest) :
    Consumes Read.calloutValues (.mark .has :: Blueprint.enclosed words) rest (values = ·) := by
  have hstart : Starts Expected.listItems (words ++ [.mark .closeBracket] ++ rest) :=
    h.starts (by decide) (fun _ _ hv => hv.begins.mono (by decide) (by decide)) rest
  refine .pastExpected rfl (.cons (by decide) rfl) (.pastExpectedStart rfl hstart ?_)
  refine (h.read (by decide) (fun _ _ hv => hv.begins) (fun _ _ hv rest hrest => ?_) hrest).mono
    fun _ => eq_of_forall₂
  refine .look .remaining fun left hleft => hv.read ?_ (hrest.mono (by decide))
  rw [List.length_append] at hleft
  omega

theorem MapItem.Spelled.opens {item : MapItem} (h : item.Spelled words) :
    Opens Expected.mapItems .closeBracket words := by
  cases h <;> exact .cons (by decide) nofun rfl

theorem MapItem.Spelled.read {item : MapItem} (h : item.Spelled words)
    (hrest : Next Expected.mapItems rest) : Consumes Read.mapItem words rest (item = ·) := by
  refine .look .peek fun found hfound => ?_
  subst hfound
  cases h with
  | teams h =>
    refine .past (h.next (by decide) rest) ?_
    refine .map (h.read (by decide) (fun _ _ hg => hg.opens)
      (fun _ _ hg _ hrest => hg.read hrest) hrest) fun found hfound => .pure ?_
    rw [eq_of_forall₂ hfound]
  | sites h =>
    refine .past (h.next (by decide) rest) ?_
    refine .map (h.read (by decide) (fun _ _ hg => hg.opens)
      (fun _ _ hg _ hrest => hg.read hrest) hrest) fun found hfound => .pure ?_
    rw [eq_of_forall₂ hfound]
  | callouts h =>
    refine .past (.cons (by decide) rfl) (.map (readCallouts h (hrest.mono (by decide))) ?_)
    rintro _ rfl
    exact .pure rfl

/-! ## Documents -/

theorem Section.Spelled.opens {part : Section} (h : part.Spelled words) :
    Opens Expected.sections .closeBracket words := by
  cases h <;> exact .cons (by decide) nofun rfl

theorem Section.Spelled.read {part : Section} (h : part.Spelled words)
    (hrest : Next Expected.sections rest) : Consumes Read.sectionBlock words rest part.Alike := by
  refine .look .peek fun found hfound => ?_
  subst hfound
  cases h with
  | config h =>
    refine .past (BlockSpelled.next h (by decide) rest) (.map (h.read hrest) ?_)
    rintro _ rfl
    exact .pure (.config _)
  | economy h =>
    refine .past (BlockSpelled.next h (by decide) rest) (.map (h.read hrest) ?_)
    rintro _ rfl
    exact .pure (.economy _)
  | «match» h =>
    refine .past (BlockSpelled.next h (by decide) rest) (.map (h.read hrest) ?_)
    rintro _ rfl
    exact .pure (.match _)
  | agents h =>
    refine .past (h.next (by decide) rest) ?_
    exact .map (h.read (by decide) (fun _ _ hb => hb.opens) (fun _ _ hb _ hrest => hb.read hrest)
      hrest) fun found hfound => .pure (.agents hfound)
  | weapons h =>
    refine .past (h.next (by decide) rest) ?_
    refine .map (h.read (by decide) (fun _ _ hb => hb.opens) (fun _ _ hb _ hrest => hb.read hrest)
      hrest) fun found hfound => .pure ?_
    rw [← eq_of_forall₂ hfound]
    exact .weapons (List.forall₂_same.mpr fun weapon _ => .refl weapon)
  | statusEffects h =>
    refine .past (h.next (by decide) rest) ?_
    exact .map (h.read (by decide) (fun _ _ hb => hb.opens) (fun _ _ hb _ hrest => hb.read hrest)
      hrest) fun found hfound => .pure (.statusEffects hfound)
  | map name h =>
    refine .past (.name (by decide)) ?_
    refine .head (.name name (h.next (by decide) rest)) fun title htitle => ?_
    refine .map (h.read (by decide) (fun _ _ hi => hi.opens) (fun _ _ hi _ hrest => hi.read hrest)
      hrest) fun found hfound => .pure ?_
    rw [htitle, ← eq_of_forall₂ hfound]
    exact .map name.text rfl rfl rfl

theorem Document.Spelled.read {document : Document} (h : document.Spelled words) :
    Consumes Read.document words [] document.Alike := by
  obtain ⟨name, hsections⟩ := h
  refine .pastExpected rfl (.name (by decide)) ?_
  refine .head (.name name (hsections.next (by decide) [])) fun title htitle => ?_
  refine .map (hsections.read (by decide) (fun _ _ hp => hp.opens)
    (fun _ _ hp _ hrest => hp.read hrest) .nil) fun found hfound => ?_
  refine .look .peek fun next hnext => ?_
  subst hnext
  exact .pure ⟨htitle.symm, hfound⟩

/-- A source in which a document is spelled out is read as that document, but for the lines of its
triggers. -/
theorem parse_spelled {document : Document} (h : document.Spelled words) {source : String}
    (hsource : LaidOut words source.toList) :
    ∃ found, Document.parse source = .ok found ∧ document.Alike found := by
  have hstart : Starts [.word .game] words := by
    obtain ⟨name, -⟩ := h
    exact Next.starts (.cons (by decide) rfl)
  obtain ⟨reader, hfetch, hreading⟩ := hsource.fetch hstart .start .start
  obtain ⟨found, reader', hread, halike, -⟩ := h.read reader (by rwa [List.append_nil])
  refine ⟨found, ?_, halike⟩
  rw [Document.parse, hfetch]
  simp only [Bind.bind, Except.bind, hread]
  rfl

end GameScript.Config
