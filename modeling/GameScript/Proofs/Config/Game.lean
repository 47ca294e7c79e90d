import GameScript.Proofs.Config.Behaviour

/-! # Games compiled to what they were written for

Every rule consumes the tokens of its construct and gives something whose datum is the one that was
meant. So a game is compiled to its datum, whatever blanks and comments stand between its tokens. -/

namespace GameScript.Config.Blueprint

section Rules

variable {rest : List Token} {room : Nat}

/-! ## Tags -/

theorem Consumes.atom (atom : Atom) (hrest : Next Expected.afterAtom rest) :
    Consumes Read.atom [atom.token] rest (·.text = .ok atom.meaning) := by
  refine .look .get fun reader hreader => ?_
  obtain ⟨⟨position, hnext⟩, -⟩ := hreader
  simp only [hnext]
  cases atom with
  | name n => exact .past hrest (.pure rfl)
  | number numeral =>
    refine .past hrest (.pure ?_)
    rw [Atom.token, chars_token, Token.chars, Option.map_none, Option.toList_none, List.append_nil]
    rfl
  | text glyphs =>
    exact .past hrest (.pure (quotedValue_chars glyphs))

theorem Consumes.tagRest (name : Name) (atom : Atom) (hrest : Next Expected.afterAtom rest) :
    Consumes Read.tagRest [.name name, .mark .has, atom.token] rest fun found =>
      tagText found.1 found.2 = .ok (tagOf name atom) := by
  have hatom : Next Expected.atoms ([atom.token] ++ rest) := by
    refine .cons ?_ rfl
    cases atom <;> simp [Atom.token, Token.terminal, Expected.atoms]
  refine .head (.name name (.cons (by decide) rfl)) fun title htitle => ?_
  refine .pastExpected rfl hatom ?_
  refine .map (.atom atom hrest) fun found hfound => .pure ?_
  rw [tagText, hfound, htitle]
  rfl

/-! ## Agents -/

/-- What an item adds to an agent. -/
def AgentItem.addTo (parts : AgentParts) (item : AgentItem room) : AgentParts where
  decorators := parts.decorators ++ item.tag?.toList
  stats := Fields.putAll parts.stats item.fields
  abilities := parts.abilities ++ item.behaviours

theorem AgentItem.foldl_addTo (items : List (AgentItem room)) (parts : AgentParts) :
    items.foldl addTo parts =
      ⟨parts.decorators ++ items.filterMap tag?, Fields.putAll parts.stats (items.flatMap fields),
        parts.abilities ++ items.flatMap behaviours⟩ := by
  induction items generalizing parts with
  | nil => simp [Fields.putAll]
  | cons item items ih =>
    rw [List.foldl_cons, ih, List.flatMap_cons, List.flatMap_cons, Fields.putAll_append,
      ← List.append_assoc]
    cases htag : item.tag? <;> simp [addTo, htag]

theorem Consumes.agentItem (item : AgentItem room) (hrest : Next Expected.agentItems rest) :
    Consumes Read.agentItem item.tokens rest fun found =>
      ∀ parts, AgentParts.add room parts found = .ok (item.addTo parts) := by
  refine .look .peek fun found hfound => ?_
  subst hfound
  cases item with
  | tag name atom =>
    refine .past (.name (by decide)) ?_
    refine .map (.tagRest name atom (hrest.mono (by decide))) fun found hfound => .pure ?_
    intro parts
    rw [AgentParts.add, hfound]
    simp [AgentItem.addTo, AgentItem.tag?, AgentItem.fields, AgentItem.behaviours, Fields.putAll]
  | stats properties =>
    refine .past (.cons (by decide) rfl) ?_
    refine .map (.properties properties hrest) fun found hfound => .pure fun parts => ?_
    rw [AgentParts.add, hfound]
    simp [AgentItem.addTo, AgentItem.tag?, AgentItem.fields, AgentItem.behaviours,
      Fields.putAll_latest]
  | abilities behaviours =>
    refine .past (.cons (by decide) rfl) ?_
    refine .map (Consumes.block (by decide) (fun behaviour _ => opens_behaviour behaviour)
      (fun behaviour _ rest hrest => .behaviour behaviour hrest) hrest) fun found hfound =>
        .pure fun parts => ?_
    rw [AgentParts.add, mapM_ok hfound]
    simp [AgentItem.addTo, AgentItem.tag?, AgentItem.fields, AgentItem.behaviours, Fields.putAll]

theorem opens_agentItem (item : AgentItem room) :
    Opens Expected.agentItems .closeBracket item.tokens := by
  cases item with
  | tag => exact .cons (by decide) (by decide) rfl
  | stats => exact .cons (by decide) (by decide) rfl
  | abilities => exact .cons (by decide) (by decide) rfl

theorem Consumes.agent (agent : Agent room) (hrest : Next (Expected.blocks .agent) rest) :
    Consumes Read.agent agent.tokens rest (·.toJson room = .ok agent.datum) := by
  refine .titled rfl agent.name (.cons (by decide) rfl)
    (Consumes.block (by decide) (fun item _ => opens_agentItem item)
      (fun item _ rest hrest => .agentItem item hrest) hrest) fun found hfound => ?_
  rw [Agent.toJson, foldlM_ok hfound, AgentItem.foldl_addTo, Fields.putAll_nil]
  rfl

/-! ## Weapons -/

/-- What an item adds to a weapon. -/
def WeaponItem.addTo (parts : WeaponParts) (item : WeaponItem room) : WeaponParts where
  decorators := parts.decorators ++ item.tag?.toList
  properties := Fields.putAll parts.properties item.field?.toList

theorem WeaponItem.foldl_addTo (items : List (WeaponItem room)) (parts : WeaponParts) :
    items.foldl addTo parts =
      ⟨parts.decorators ++ items.filterMap tag?,
        Fields.putAll parts.properties (items.filterMap field?)⟩ := by
  induction items generalizing parts with
  | nil => simp [Fields.putAll]
  | cons item items ih =>
    rw [List.foldl_cons, ih]
    cases htag : item.tag? <;> cases hfield : item.field? <;>
      simp [addTo, htag, hfield, Fields.putAll]

theorem Consumes.weaponItem (item : WeaponItem room) (hrest : Next Expected.taggedItems rest) :
    Consumes Read.weaponItem item.tokens rest fun found =>
      ∀ parts, WeaponParts.add room parts found = .ok (item.addTo parts) := by
  cases item with
  | tag name atom =>
    refine .here rfl (.past (.name (by decide)) ?_)
    refine .map (.tagRest name atom (hrest.mono (by decide))) fun found hfound => .pure ?_
    intro parts
    rw [WeaponParts.add, hfound]
    simp [WeaponItem.addTo, WeaponItem.tag?, WeaponItem.field?, Fields.putAll]
  | property property =>
    refine .elsewhere nofun (.head (.name property.key (.cons (by decide) rfl)) fun key hkey => ?_)
    refine .elsewhere nofun (.map (.valueAfterHas property.value (hrest.mono (by decide))) ?_)
    refine fun found hfound => .pure fun parts => ?_
    rw [WeaponParts.add, hfound room property.fits, hkey]
    simp [WeaponItem.addTo, WeaponItem.tag?, WeaponItem.field?, Fields.putAll, Property.field]
  | nested key properties =>
    refine .elsewhere nofun (.head (.name key (.cons (by decide) rfl)) fun found hkey => ?_)
    refine .here rfl (.map (.properties properties hrest) fun found hfound => .pure fun parts => ?_)
    rw [WeaponParts.add, hfound, hkey]
    simp [WeaponItem.addTo, WeaponItem.tag?, WeaponItem.field?, Fields.putAll, objectOf]

theorem opens_weaponItem (item : WeaponItem room) :
    Opens Expected.taggedItems .closeBracket item.tokens := by
  cases item with
  | tag => exact .cons (by decide) (by decide) rfl
  | property property => exact opens_property property (by decide)
  | nested => exact .name (by decide)

theorem Consumes.weapon (weapon : Weapon room) (hrest : Next (Expected.blocks .weapon) rest) :
    Consumes Read.weapon weapon.tokens rest (·.toJson room = .ok weapon.datum) := by
  refine .titled rfl weapon.name (.cons (by decide) rfl)
    (Consumes.block (by decide) (fun item _ => opens_weaponItem item)
      (fun item _ rest hrest => .weaponItem item hrest) hrest) fun found hfound => ?_
  rw [Weapon.toJson, foldlM_ok hfound, WeaponItem.foldl_addTo, Fields.putAll_nil]
  rfl

/-! ## Maps -/

theorem Consumes.group (keyword : Keyword) (group : Group room)
    (hrest : Next (Expected.blocks keyword) rest) :
    Consumes (Read.group keyword) (group.tokens keyword) rest
      (·.toJson room = .ok group.datum) := by
  refine .titled rfl group.name (.cons (by decide) rfl) (.properties group.properties hrest) ?_
  intro found hfound
  rw [Group.toJson, hfound]
  rfl

/-- The groups of a block. -/
theorem Consumes.groups (keyword : Keyword) (groups : List (Group room)) {after : Expected}
    (hafter : Next after rest) :
    Consumes (Read.block (Expected.blocks keyword) after (Read.group keyword))
      (bracketed (groups.flatMap (Group.tokens keyword))) rest
      (·.mapM (Group.toJson room) = .ok (groups.map Group.datum)) := by
  have hopens : ∀ group ∈ groups,
      Opens (Expected.blocks keyword) .closeBracket (group.tokens keyword) :=
    fun group _ => .cons List.mem_cons_self nofun rfl
  refine (Consumes.block (by simp [Expected.blocks]) hopens (fun group _ rest hrest => ?_)
    hafter).mono fun found hfound => mapM_ok hfound
  exact .group keyword group hrest

theorem Consumes.calloutValues (values : List Value) (hrest : Next Expected.afterList rest) :
    Consumes Read.calloutValues (.mark .has :: bracketed (commas (values.map Value.tokens))) rest
      (List.Forall₂ Means values) := by
  have hstart : Starts Expected.listItems
      (joined (values.map Value.tokens) ++ [.mark .closeBracket] ++ rest) :=
    starts_joined (by decide) (fun value _ => value.opens.begins.mono (by decide) (by decide)) rest
  rw [commas_eq]
  refine .pastExpected rfl (.cons (by decide) rfl) ?_
  refine .pastExpectedStart rfl hstart ?_
  refine .list (by decide) (fun value _ => value.opens.begins) (fun value _ rest hrest => ?_) hrest
  refine .look .remaining fun left hleft => .value value ?_ (hrest.mono (by decide))
  rw [List.length_append] at hleft
  omega

/-- What an item adds to a map. -/
def MapItem.addTo (parts : MapParts) (item : MapItem room) : MapParts where
  teams := parts.teams ++ item.teamData
  sites := parts.sites ++ item.siteData
  callouts := parts.callouts ++ item.calloutData

theorem MapItem.foldl_addTo (items : List (MapItem room)) (parts : MapParts) :
    items.foldl addTo parts =
      ⟨parts.teams ++ items.flatMap teamData, parts.sites ++ items.flatMap siteData,
        parts.callouts ++ items.flatMap calloutData⟩ := by
  induction items generalizing parts with
  | nil => simp
  | cons item items ih =>
    rw [List.foldl_cons, ih]
    simp [addTo]

theorem Consumes.mapItem (item : MapItem room) (hrest : Next Expected.mapItems rest) :
    Consumes Read.mapItem item.tokens rest fun found =>
      ∀ parts, MapParts.add room parts found = .ok (item.addTo parts) := by
  refine .look .peek fun found hfound => ?_
  subst hfound
  cases item with
  | teams groups =>
    refine .past (.cons (by decide) rfl) ?_
    refine .map (.groups .team groups hrest) fun found hfound => .pure fun parts => ?_
    rw [MapParts.add, hfound]
    simp [MapItem.addTo, MapItem.teamData, MapItem.siteData, MapItem.calloutData]
  | sites groups =>
    refine .past (.cons (by decide) rfl) ?_
    refine .map (.groups .site groups hrest) fun found hfound => .pure fun parts => ?_
    rw [MapParts.add, hfound]
    simp [MapItem.addTo, MapItem.teamData, MapItem.siteData, MapItem.calloutData]
  | callouts values fits =>
    refine .past (.cons (by decide) rfl) ?_
    refine .map (.calloutValues values (hrest.mono (by decide))) fun found hfound =>
      .pure fun parts => ?_
    have hroom : ∀ value ∈ values, value.depth ≤ room - 1 :=
      fun value hvalue => Nat.le_sub_one_of_lt (fits value hvalue)
    rw [MapParts.add, valuesToJson_means hfound hroom]
    simp [MapItem.addTo, MapItem.teamData, MapItem.siteData, MapItem.calloutData]

theorem opens_mapItem (item : MapItem room) :
    Opens Expected.mapItems .closeBracket item.tokens := by
  cases item <;> exact .cons (by decide) (by decide) rfl

/-! ## Sections -/

/-- A section that was read is of the kind that was meant and has its datum. -/
theorem Consumes.sectionBlock (part : Section room) (hrest : Next Expected.sections rest) :
    Consumes Read.sectionBlock part.tokens rest fun found =>
      found.key = part.kind ∧ found.toJson room = .ok part.datum := by
  refine .look .peek fun found hfound => ?_
  subst hfound
  cases part with
  | config properties | economy properties | «match» properties =>
    refine .past (.cons (by decide) rfl) ?_
    refine .map (.properties properties hrest) fun found hfound => .pure ⟨rfl, ?_⟩
    rw [Section.toJson, hfound]
    rfl
  | agents blocks =>
    have hopens : ∀ agent ∈ blocks, Opens (Expected.blocks .agent) .closeBracket agent.tokens :=
      fun agent _ => .cons (by decide) (by decide) rfl
    refine .past (.cons (by decide) rfl) ?_
    refine .map (Consumes.block (by decide) hopens (fun agent _ rest hrest => .agent agent hrest)
      hrest) fun found hfound => .pure ⟨rfl, ?_⟩
    rw [Section.toJson, mapM_ok hfound]
    rfl
  | weapons blocks =>
    have hopens : ∀ weapon ∈ blocks, Opens (Expected.blocks .weapon) .closeBracket weapon.tokens :=
      fun weapon _ => .cons (by decide) (by decide) rfl
    refine .past (.cons (by decide) rfl) ?_
    refine .map (Consumes.block (by decide) hopens (fun weapon _ rest hrest => .weapon weapon hrest)
      hrest) fun found hfound => .pure ⟨rfl, ?_⟩
    rw [Section.toJson, mapM_ok hfound]
    rfl
  | statusEffects blocks =>
    refine .past (.cons (by decide) rfl) ?_
    refine .map (Consumes.block (by decide) (fun effect _ => opens_behaviour effect)
      (fun effect _ rest hrest => .behaviour effect hrest) hrest) fun found hfound =>
        .pure ⟨rfl, ?_⟩
    rw [Section.toJson, mapM_ok hfound]
    rfl
  | map name items =>
    refine .past (.name (by decide)) ?_
    refine .head (.name name (.cons (by decide) rfl)) fun title htitle => ?_
    refine .map (Consumes.block (by decide) (fun item _ => opens_mapItem item)
      (fun item _ rest hrest => .mapItem item hrest) hrest) fun found hfound => .pure ⟨rfl, ?_⟩
    rw [Section.toJson, foldlM_ok hfound, MapItem.foldl_addTo, htitle]
    rfl

theorem opens_section (part : Section room) :
    Opens Expected.sections .closeBracket part.tokens := by
  cases part <;> exact .cons (by decide) (by decide) rfl

/-! ## Games -/

theorem get?_map_kind (sections : List (Section room)) (kind : String) :
    Fields.get? (sections.map fun part => (part.kind, part.datum)) kind =
      (sections.find? (·.kind = kind)).map Section.datum := by
  induction sections with
  | nil => rfl
  | cons part sections ih =>
    by_cases h : part.kind = kind
    · simp [Fields.get?, h]
    · simp [Fields.get?, h, ih]

theorem gameObject_eq (document : Document room) :
    gameObject document.name.text (document.sections.map fun part => (part.kind, part.datum)) =
      document.datum := by
  have hkinds : sectionKeys = kinds := rfl
  simp only [gameObject, Document.datum, hkinds, ← List.map_reverse, get?_map_kind, Option.map_map]
  rfl

theorem Consumes.document (document : Document room) :
    Consumes Read.document document.tokens [] fun found =>
      found.name = document.name.text ∧ found.sections.length = document.sections.length ∧
        found.toJson room = .ok document.datum := by
  refine .pastExpected rfl (.name (by decide)) ?_
  refine .head (.name document.name (.cons (by decide) rfl)) fun name hname => ?_
  refine .map (Consumes.block (by decide) (fun part _ => opens_section part)
    (fun part _ rest hrest => .sectionBlock part hrest) .nil) fun found hfound => ?_
  refine .look .peek fun next hnext => ?_
  subst hnext
  refine .pure ⟨hname, hfound.length_eq.symm, ?_⟩
  have hsections : found.mapM (fun part => do return (part.key, ← part.toJson room)) =
      .ok (document.sections.map fun part => (part.kind, part.datum)) := by
    refine mapM_ok (hfound.imp fun part found h => ?_)
    rw [h.1, h.2]
    rfl
  rw [Document.toJson, hsections, hname, ← gameObject_eq]
  rfl

end Rules

/-- Every source that is written for a game is compiled to the game's datum. -/
theorem compile_written (limits : Limits) (document : Document limits.listing) {source : String}
    (h : Written document.tokens source.toList) :
    compile limits source =
      .ok ⟨document.name.text, document.sections.length, document.datum⟩ := by
  have hstart : Next [.word .game] document.tokens := .cons (by decide) rfl
  obtain ⟨reader, hfetch, hreading⟩ := h.fetch hstart .start .start
  obtain ⟨found, reader', hread, ⟨hname, hlength, hjson⟩, -⟩ :=
    Consumes.document document reader (by rwa [List.append_nil])
  have hparse : Document.parse source = .ok found := by
    rw [Document.parse, hfetch]
    simp only [Bind.bind, Except.bind, hread]
    rfl
  rw [compile, hparse]
  simp only [Bind.bind, Except.bind, hjson, hname, hlength]
  rfl

/-- Tokens with one and the same text between them. -/
def spaced (gap : List Char) (tokens : List Token) : List Char :=
  gap.intercalate (tokens.map Token.chars)

/-- Every row of tokens can be written. -/
theorem written_spaced {gap : List Char} (hgap : Spacing gap) (hne : gap ≠ []) (token : Token)
    (tokens : List Token) : Written (token :: tokens) (spaced gap (token :: tokens)) := by
  have hspaced : ∀ token, ∃ rest, spaced gap (token :: tokens) = token.chars ++ rest ∧
      Following tokens rest := by
    induction tokens with
    | nil => exact fun token => ⟨[], by simp [spaced], .ending (.spacing .nil)⟩
    | cons next tokens ih =>
      intro token
      obtain ⟨rest, hrest, hfollowing⟩ := ih next
      refine ⟨gap ++ (next.chars ++ rest), ?_, .token hgap hne hfollowing⟩
      rw [← hrest]
      simp [spaced]
  obtain ⟨rest, hrest, hfollowing⟩ := hspaced token
  rw [hrest]
  exact .source .nil hfollowing

/-- A game with a rule for matches and an effect. -/
def duel : Document Limits.standard.listing where
  name := { first := 'D', rest := "uel".toList }
  sections := [
    .match [
      { key := { first := 'w', rest := "ait".toList }
        value := .list [.number { negative := false, whole := "25".toList, fraction := [] }
            (some .seconds), .text [.plain 'a' (by decide), .escaped '"' '"' (by decide)]]
        fits := by decide }],
    .statusEffects [
      { name := { first := 'B', rest := "urn".toList }
        items := [
          .trigger { first := 'O', rest := "N_TICK".toList } (by decide)
            { action := { first := 'h', rest := "it".toList }
              target := { first := 'a', rest := "ll".toList }
              arguments := some [
                { key := { first := 'x', rest := [] }
                  value := .flag .yes true (by decide)
                  fits := by decide }]
              modifiers := none } []] }]]

def duelSource : String :=
  "GAME Duel [ MATCH [ wait :: [ 25s , \"a\\\"\" ] ] STATUS_EFFECTS [ EFFECT Burn [ " ++
    "ON_TICK => hit -> all ( x :: YES ) ] ] ]"

theorem duel_compiled :
    compile .standard duelSource = .ok ⟨"Duel", 2, .object [("game_name", .string "Duel"),
      ("status_effects", .array [.object [("name", .string "Burn"), ("decorators", strings []),
        ("properties", .object []), ("events", .object [("ON_TICK", .array [.object
          [("action", .string "hit"), ("target", .string "all"),
            ("parameters", .object [("x", .bool true)])]])])]]),
      ("match", .object [("wait", .array
        [.object [("value", .int 25), ("unit", .string "seconds")], .string "a\""])])]⟩ := by
  have hsource : duelSource.toList = spaced [' '] duel.tokens := by decide +kernel
  have hwritten : Written duel.tokens duelSource.toList := by
    rw [hsource]
    exact written_spaced (.blank rfl .nil) nofun _ _
  exact compile_written .standard duel hwritten

end GameScript.Config.Blueprint
