import GameScript.Proofs.Config.Literal
import GameScript.Proofs.Config.Reader

/-! # Values and properties read back

The rules for values and properties consume their tokens, and what they give has the datum that was
meant. -/

namespace GameScript.Config.Blueprint

/-! ## Results in a row -/

section Rows

variable {ε α β γ : Type}

theorem mapM_ok {f : α → Except ε γ} {g : β → γ} {bs : List β} {as : List α}
    (h : List.Forall₂ (fun b a => f a = .ok (g b)) bs as) : as.mapM f = .ok (bs.map g) := by
  induction h with
  | nil => rfl
  | cons ha _ ih =>
    rw [List.mapM_cons, ha, ih]
    rfl

theorem foldlM_ok {f : γ → α → Except ε γ} {g : γ → β → γ} {bs : List β} {as : List α}
    (h : List.Forall₂ (fun b a => ∀ parts, f parts a = .ok (g parts b)) bs as) (parts : γ) :
    as.foldlM f parts = .ok (bs.foldl g parts) := by
  induction h generalizing parts with
  | nil => rfl
  | cons ha _ ih =>
    rw [List.foldlM_cons, ha]
    exact ih _

end Rows

/-! ## Values -/

namespace Value

theorem induction {P : Value → Prop} (simple : ∀ value, (∀ items, value ≠ .list items) → P value)
    (list : ∀ items, (∀ value ∈ items, P value) → P (.list items)) (value : Value) : P value :=
  @Value.rec P (fun items => ∀ value ∈ items, P value)
    (fun _ _ => simple _ nofun) (fun _ => simple _ nofun) (fun _ _ _ => simple _ nofun)
    (fun _ => simple _ nofun) list nofun
    (fun _ _ hvalue hrest => List.forall_mem_cons.mpr ⟨hvalue, hrest⟩) value

theorem data_eq (items : List Value) : data items = items.map datum := by
  induction items with
  | nil => rfl
  | cons value rest ih => rw [data, ih, List.map_cons]

theorem rows_eq (items : List Value) : rows items = items.map tokens := by
  induction items with
  | nil => rfl
  | cons value rest ih => rw [rows, ih, List.map_cons]

theorem depths_le {items : List Value} {n : Nat} :
    depths items ≤ n ↔ ∀ value ∈ items, value.depth ≤ n := by
  induction items with
  | nil => simp [depths]
  | cons value rest ih => rw [depths, Nat.max_le, ih, List.forall_mem_cons]

theorem opens (value : Value) : Opens Expected.values .closeBracket value.tokens := by
  cases value with
  | number numeral measure =>
    refine .cons ?_ ?_ rfl
    · rcases measure with _ | _ | _ <;> simp [Token.terminal, Expected.values]
    · rcases measure with _ | _ | _ <;> simp [Token.terminal]
  | text glyphs => exact .cons (by simp [Token.terminal, Expected.values]) nofun rfl
  | flag keyword value isFlag =>
    have hall : ∀ entry ∈ flags, Terminal.word entry.1 ∈ Expected.values := by decide
    exact .cons (hall _ isFlag) nofun rfl
  | word name => exact .name (by decide)
  | list items => exact .cons (by decide) (by decide) rfl

end Value

/-- A value that was read has the datum of the one that was meant, if there is room for it. -/
def Means (value : Value) (found : Config.Value) : Prop :=
  ∀ room, value.depth ≤ room → found.toJson room = .ok value.datum

theorem valuesToJson_means {values : List Value} {found : List Config.Value} {room : Nat}
    (h : List.Forall₂ Means values found) (hroom : ∀ value ∈ values, value.depth ≤ room) :
    valuesToJson room found = .ok (values.map Value.datum) := by
  induction h with
  | nil => rfl
  | cons hvalue _ ih =>
    obtain ⟨hfirst, hrest⟩ := List.forall_mem_cons.mp hroom
    rw [valuesToJson, hvalue room hfirst, ih hrest]
    rfl

theorem means_list {items : List Value} {found : List Config.Value}
    (h : List.Forall₂ Means items found) : Means (.list items) (.list found) := by
  intro room hroom
  rw [Value.depth] at hroom
  have hvalues : valuesToJson (room - 1) found = .ok (items.map Value.datum) :=
    valuesToJson_means h (Value.depths_le.mp (by omega))
  rw [Config.Value.toJson, if_neg (by omega), hvalues, Value.datum, Value.data_eq]
  rfl

theorem withoutUnit_eq (numeral : Numeral) (measure : Measure) (terminal : Terminal)
    (position : Position) :
    Read.withoutUnit
        ⟨terminal, String.ofList (Token.number numeral (some measure)).chars, position⟩ =
      String.ofList numeral.chars := by
  simp [Read.withoutUnit, Token.chars]

/-- The value of a single token. -/
theorem simpleValue_means (value : Value) (h : ∀ items, value ≠ .list items) :
    ∃ token, value.tokens = [token] ∧ token.terminal ≠ Expected.openBracket ∧
      ∀ position, ∃ found,
        Read.simpleValue? ⟨token.terminal, String.ofList token.chars, position⟩ = some found ∧
          Means value found := by
  cases value with
  | number numeral measure =>
    refine ⟨_, rfl, ?_⟩
    match measure with
    | none =>
      refine ⟨by rintro ⟨⟩, fun position => ⟨_, rfl, fun room _ => ?_⟩⟩
      rw [Token.chars, Option.map_none, Option.toList_none, List.append_nil, Config.Value.toJson,
        numberValue_chars]
      rfl
    | some .seconds =>
      refine ⟨by rintro ⟨⟩, fun position => ⟨_, rfl, fun room _ => ?_⟩⟩
      rw [withoutUnit_eq, Config.Value.toJson, quantity, numberValue_chars]
      rfl
    | some .percent =>
      refine ⟨by rintro ⟨⟩, fun position => ⟨_, rfl, fun room _ => ?_⟩⟩
      rw [withoutUnit_eq, Config.Value.toJson, quantity, numberValue_chars]
      rfl
  | text glyphs =>
    refine ⟨_, rfl, by rintro ⟨⟩, fun position => ⟨_, rfl, fun room _ => ?_⟩⟩
    rw [Config.Value.toJson, quotedValue_chars]
    rfl
  | flag keyword value isFlag =>
    refine ⟨_, rfl, by rintro ⟨⟩, fun position => ⟨.flag value, ?_, fun room _ => rfl⟩⟩
    have hall : ∀ entry ∈ flags, ∀ text position,
        Read.simpleValue? ⟨.word entry.1, text, position⟩ = some (.flag entry.2) := by
      simp [flags, Read.simpleValue?]
    exact hall _ isFlag _ _
  | word name => exact ⟨_, rfl, by rintro ⟨⟩, fun position => ⟨_, rfl, fun room _ => rfl⟩⟩
  | list items => exact absurd rfl (h items)

section Rules

variable {rest : List Token}

theorem Consumes.value (value : Value) {fuel : Nat} (hfuel : value.tokens.length ≤ fuel)
    (hrest : Next Expected.afterValue rest) :
    Consumes (Read.value fuel) value.tokens rest (Means value) := by
  induction value using Value.induction generalizing fuel rest with
  | simple value hsimple =>
    obtain ⟨token, htokens, hterminal, hvalue⟩ := simpleValue_means value hsimple
    rw [htokens] at hfuel ⊢
    obtain ⟨fuel, rfl⟩ : ∃ n, fuel = n + 1 := ⟨fuel - 1, by simp at hfuel; omega⟩
    refine .elsewhere (fun he => hterminal (Option.some.inj he)) ?_
    refine .look .get fun reader hreader => ?_
    obtain ⟨⟨position, hnext⟩, -⟩ := hreader
    obtain ⟨found, hfound, hmeans⟩ := hvalue position
    simp only [hnext, Option.bind_some, terminal_token, chars_token, hfound]
    exact .past hrest (.pure hmeans)
  | list items ih =>
    rw [Value.tokens, Value.rows_eq, commas_eq] at hfuel ⊢
    obtain ⟨fuel, rfl⟩ : ∃ n, fuel = n + 1 := ⟨fuel - 1, by simp [bracketed] at hfuel; omega⟩
    have hbegins : ∀ value ∈ items, Begins Expected.values .closeBracket value.tokens :=
      fun value _ => value.opens.begins
    have hitem : ∀ value ∈ items, ∀ rest, Next [.mark .comma, .mark .closeBracket] rest →
        Consumes (Read.value fuel) value.tokens rest (Means value) := by
      intro value hvalue rest hrest
      refine ih value hvalue ?_ (hrest.mono (by decide))
      -- The brackets of the list pay for the step of fuel that its items have less.
      have hlength := length_le_joined (List.mem_map_of_mem (f := Value.tokens) hvalue)
      simp only [bracketed, List.length_cons, List.length_append] at hfuel
      omega
    have hstart : Starts Expected.listItems
        (joined (items.map Value.tokens) ++ [.mark .closeBracket] ++ rest) := by
      refine starts_joined (by decide) (fun value _ => ?_) rest
      exact value.opens.begins.mono (by decide) (by decide)
    refine .here rfl (.pastStart hstart ?_)
    exact .map (.list (by decide) hbegins hitem (hrest.mono (by decide))) fun found hfound =>
      .pure (means_list hfound)

theorem Consumes.valueAfterHas (value : Value) (hrest : Next Expected.afterValue rest) :
    Consumes Read.valueAfterHas (.mark .has :: value.tokens) rest (Means value) := by
  have hstart : Next Expected.values (value.tokens ++ rest) := value.opens.next rest
  refine .pastExpected rfl hstart ?_
  refine .look .remaining fun left hleft => ?_
  refine .value value ?_ hrest
  rw [List.length_append] at hleft
  omega

variable {room : Nat}

theorem Consumes.property (property : Property room) (hrest : Next Expected.afterValue rest) :
    Consumes Read.property property.tokens rest (·.toField room = .ok property.field) := by
  refine .head (.name property.key (.cons (by decide) rfl)) fun key hkey => ?_
  refine .map (.valueAfterHas property.value hrest) fun found hfound => .pure ?_
  rw [Property.toField, hkey, hfound room property.fits]
  rfl

theorem opens_property {expected : Expected} {closing : Mark} (property : Property room)
    (h : .name ∈ expected) : Opens expected closing property.tokens := .name h

theorem propertyFields_of {properties : List (Property room)} {found : List Config.Property}
    (h : List.Forall₂ (fun property found => found.toField room = .ok property.field) properties
      found) :
    propertyFields room found = .ok (Fields.latest (properties.map Property.field)) := by
  rw [propertyFields, mapM_ok h, ← Fields.putAll_nil]
  rfl

theorem Consumes.properties (properties : List (Property room)) {after : Expected}
    (hafter : Next after rest) :
    Consumes (Read.properties after) (blockOf properties) rest
      (propertyFields room · = .ok (Fields.latest (properties.map Property.field))) := by
  refine (Consumes.block (by decide) (fun property _ => opens_property property (by decide))
    (fun property _ rest hrest => ?_) hafter).mono fun found hfound => propertyFields_of hfound
  exact .property property (hrest.mono (by decide))

end Rules

end GameScript.Config.Blueprint
