import GameScript.Proofs.Config.Reader

/-! # How documents are spelled

The words of a source, each with its text, and the grammar: which rows of words spell which part of a
document. A name is no word with a meaning of its own; a value may be one where it has no such meaning.
Numbers may have any number of digits and texts any escapes, whether they stand for something or not. -/

namespace GameScript.Config

open Blueprint (Name Measure Lexical)

/-! ## Words -/

/-- A word, a mark, a number or a text in quotes. -/
inductive Word where
  | word (keyword : Keyword)
  | mark (mark : Mark)
  | name (name : Name)
  /-- A word that has a meaning of its own, but not here. -/
  | bare (keyword : Keyword)
  | number (digits : List Char) (measure : Option Measure) (hne : digits ≠ [])
      (isNumber : Lexeme.numeral digits = digits)
  | quoted (text : List Char) (isQuoted : Lexeme.quotedText text = some text)

namespace Word

def terminal : Word → Terminal
  | .word keyword => .word keyword
  | .mark m => .mark m
  | .name _ | .bare _ => .name
  | .number _ measure _ _ => Blueprint.numberTerminal measure
  | .quoted _ _ => .quoted

def chars : Word → List Char
  | .word keyword | .bare keyword => keyword.text.toList
  | .mark m => m.text.toList
  | .name n => n.chars
  | .number digits measure _ _ => digits ++ (measure.map Measure.mark).toList
  | .quoted text _ => text

/-- The words that are read instead where they may stand. -/
def shadows : Word → List Keyword
  | .bare keyword => [keyword]
  | _ => []

/-- Marks and texts in quotes end by themselves. -/
def Ends : Word → List Char → Prop
  | .mark _, _ | .quoted _ _, _ => True
  | _, rest => Blueprint.Stops rest

theorem numeral_begins {digits : List Char} (hne : digits ≠ [])
    (h : Lexeme.numeral digits = digits) :
    ∃ c rest, digits = c :: rest ∧ (c = '-' ∨ Text.isDigit c) := by
  obtain ⟨c, rest, rfl⟩ := List.exists_cons_of_ne_nil hne
  refine ⟨c, rest, rfl, ?_⟩
  by_cases hc : c = '-'
  · exact .inl hc
  · refine .inr ?_
    by_contra hdigit
    have hnone := @Blueprint.numeral_eq_nil _ rest (by simpa using hdigit) fun he => absurd he hc
    exact hne (h.symm.trans hnone)

theorem begins (word : Word) : ∃ c text, word.chars = c :: text ∧ c ∉ Blueprint.breaks := by
  cases word with
  | word keyword | bare keyword => exact (Blueprint.Token.word keyword).begins
  | mark m => exact (Blueprint.Token.mark m).begins
  | name n => exact (Blueprint.Token.name n).begins
  | number digits measure hne isNumber =>
    obtain ⟨c, rest, rfl, hc⟩ := numeral_begins hne isNumber
    refine ⟨c, _, rfl, fun hmem => ?_⟩
    rcases hc with rfl | hdigit
    · exact absurd hmem (by decide)
    · simp [(Blueprint.breaks_class c hmem).2.1] at hdigit
  | quoted text isQuoted =>
    unfold Lexeme.quotedText at isQuoted
    split at isQuoted
    · exact ⟨'"', _, rfl, by decide⟩
    · cases isQuoted

/-- A word is read as what it is wherever it may stand. -/
theorem read_chars {word : Word} {expected : Expected} {rest : List Char}
    (h : word.terminal ∈ expected) (hshadows : ∀ keyword ∈ word.shadows, .word keyword ∉ expected)
    (hends : word.Ends rest) :
    Lexeme.read expected (word.chars ++ rest) = some (word.terminal, word.chars) := by
  cases word with
  | word keyword => exact Blueprint.read_word keyword h hends
  | mark m => exact Blueprint.read_mark m h
  | name n => exact Blueprint.read_name n h hends
  | bare keyword =>
    obtain ⟨c, text, htext, hstart, hname⟩ := Blueprint.keyword_begins keyword
    rw [chars, htext]
    refine Blueprint.read_asName hstart hname h (fun other hother he => ?_) hends
    obtain rfl : other = keyword :=
      Blueprint.Keyword.text_injective (String.toList_inj.mp (he.trans htext.symm))
    exact hshadows other List.mem_cons_self hother
  | number digits measure hne isNumber =>
    exact Blueprint.read_measured hne (fun _ => Blueprint.numeral_append hne isNumber) measure h hends
  | quoted text isQuoted => exact Blueprint.read_text isQuoted h

end Word

instance : Lexical Word where
  terminal := Word.terminal
  chars := Word.chars
  mark := .mark
  name := .name
  Ends := Word.Ends
  shadows := Word.shadows
  terminal_mark _ := rfl
  terminal_name _ := rfl
  chars_name _ := rfl
  shadows_mark _ := rfl
  shadows_name _ := rfl
  begins := Word.begins
  read_chars := Word.read_chars

@[simp]
theorem terminal_eq (word : Word) : Lexical.terminal word = word.terminal := rfl

@[simp]
theorem chars_eq (word : Word) : Lexical.chars word = word.chars := rfl

/-! ## Rows of words -/

section Rows

variable {α : Type}

/-- Items in brackets, one behind the other. -/
def BlockSpelled (Spelled : α → List Word → Prop) (items : List α) (words : List Word) : Prop :=
  ∃ rows, List.Forall₂ Spelled items rows ∧ words = Blueprint.enclosed rows.flatten

/-- Items with commas between them. -/
def ListSpelled (Spelled : α → List Word → Prop) (items : List α) (words : List Word) : Prop :=
  ∃ rows, List.Forall₂ Spelled items rows ∧ words = Blueprint.joined rows

end Rows

/-! ## Values and properties -/

mutual

inductive Value.Spelled : Value → List Word → Prop
  | number {digits : List Char} (hne : digits ≠ []) (h : Lexeme.numeral digits = digits) :
      Value.Spelled (.number (String.ofList digits)) [.number digits none hne h]
  | duration {digits : List Char} (hne : digits ≠ []) (h : Lexeme.numeral digits = digits) :
      Value.Spelled (.duration (String.ofList digits)) [.number digits (some .seconds) hne h]
  | percentage {digits : List Char} (hne : digits ≠ []) (h : Lexeme.numeral digits = digits) :
      Value.Spelled (.percentage (String.ofList digits)) [.number digits (some .percent) hne h]
  | quoted {text : List Char} (h : Lexeme.quotedText text = some text) :
      Value.Spelled (.quoted (String.ofList text)) [.quoted text h]
  | flag {keyword : Keyword} {value : Bool} (h : (keyword, value) ∈ Blueprint.flags) :
      Value.Spelled (.flag value) [.word keyword]
  | word (name : Name) : Value.Spelled (.word name.text) [.name name]
  | bare {keyword : Keyword} (h : keyword ∉ Blueprint.flags.map (·.1)) :
      Value.Spelled (.word keyword.text) [.bare keyword]
  | list {items : List Value} {rows : List (List Word)} (h : ValuesSpelled items rows) :
      Value.Spelled (.list items) (Blueprint.enclosed (Blueprint.joined rows))

/-- Values with the words of each of them. -/
inductive ValuesSpelled : List Value → List (List Word) → Prop
  | nil : ValuesSpelled [] []
  | cons {value : Value} {values : List Value} {row : List Word} {rows : List (List Word)}
      (hvalue : Value.Spelled value row) (hvalues : ValuesSpelled values rows) :
      ValuesSpelled (value :: values) (row :: rows)

end

inductive Property.Spelled : Property → List Word → Prop
  | property (key : Name) {value : Value} {words : List Word} (h : value.Spelled words) :
      Property.Spelled ⟨key.text, value⟩ (.name key :: .mark .has :: words)

/-- A block of properties. -/
abbrev PropertiesSpelled : List Property → List Word → Prop := BlockSpelled Property.Spelled

/-! ## Behaviour -/

inductive ArgumentsSpelled : List Property → List Word → Prop
  | none : ArgumentsSpelled [] []
  | some {properties : List Property} {words : List Word}
      (h : ListSpelled Property.Spelled properties words) :
      ArgumentsSpelled properties (.mark .openParen :: (words ++ [.mark .closeParen]))

inductive ModifiersSpelled : List Property → List Word → Prop
  | none : ModifiersSpelled [] []
  | some {properties : List Property} {words : List Word} (h : PropertiesSpelled properties words) :
      ModifiersSpelled properties (.word .with :: words)

inductive Step.Spelled : Step → List Word → Prop
  | step (action target : Name) {arguments modifiers : List Property} {words more : List Word}
      (harguments : ArgumentsSpelled arguments words) (hmodifiers : ModifiersSpelled modifiers more) :
      Step.Spelled ⟨action.text, target.text, arguments, modifiers⟩
        (.name action :: .mark .onto :: .name target :: (words ++ more))

/-- The steps of a pipeline, at least one. -/
inductive StepsSpelled : List Step → List Word → Prop
  | last {step : Step} {words : List Word} (h : step.Spelled words) : StepsSpelled [step] words
  | next {step : Step} {steps : List Step} {words more : List Word} (h : step.Spelled words)
      (hsteps : StepsSpelled steps more) :
      StepsSpelled (step :: steps) (words ++ .mark .then :: more)

/-- An item of an ability or effect. The line of a trigger does not tell its words. -/
inductive BehaviourItem.Spelled : BehaviourItem → List Word → Prop
  | decorator (name : Name) : BehaviourItem.Spelled (.decorator name.text) [.mark .tag, .name name]
  | property {property : Property} {words : List Word} (h : property.Spelled words) :
      BehaviourItem.Spelled (.property property) words
  | trigger (name : Name) (line : Nat) {steps : List Step} {words : List Word}
      (h : StepsSpelled steps words) :
      BehaviourItem.Spelled (.trigger ⟨name.text, line, steps⟩) (.name name :: .mark .then :: words)

/-- An ability or effect, by the word that begins it. -/
inductive Behaviour.Spelled (keyword : Keyword) : Behaviour → List Word → Prop
  | behaviour (name : Name) {items : List BehaviourItem} {words : List Word}
      (h : BlockSpelled BehaviourItem.Spelled items words) :
      Behaviour.Spelled keyword ⟨name.text, items⟩ (.word keyword :: .name name :: words)

/-! ## Agents and weapons -/

/-- The value of a tag. -/
inductive Atom.Spelled : Atom → Word → Prop
  | name (name : Name) : Atom.Spelled (.plain name.text) (.name name)
  | bare (keyword : Keyword) : Atom.Spelled (.plain keyword.text) (.bare keyword)
  | number {digits : List Char} (hne : digits ≠ []) (h : Lexeme.numeral digits = digits) :
      Atom.Spelled (.plain (String.ofList digits)) (.number digits none hne h)
  | quoted {text : List Char} (h : Lexeme.quotedText text = some text) :
      Atom.Spelled (.quoted (String.ofList text)) (.quoted text h)

inductive AgentItem.Spelled : AgentItem → List Word → Prop
  | tag (name : Name) {atom : Atom} {word : Word} (h : atom.Spelled word) :
      AgentItem.Spelled (.tag name.text atom) [.mark .tag, .name name, .mark .has, word]
  | stats {properties : List Property} {words : List Word} (h : PropertiesSpelled properties words) :
      AgentItem.Spelled (.stats properties) (.word .stats :: words)
  | abilities {blocks : List Behaviour} {words : List Word}
      (h : BlockSpelled (Behaviour.Spelled .ability) blocks words) :
      AgentItem.Spelled (.abilities blocks) (.word .abilities :: words)

inductive Agent.Spelled : Agent → List Word → Prop
  | agent (name : Name) {items : List AgentItem} {words : List Word}
      (h : BlockSpelled AgentItem.Spelled items words) :
      Agent.Spelled ⟨name.text, items⟩ (.word .agent :: .name name :: words)

inductive WeaponItem.Spelled : WeaponItem → List Word → Prop
  | tag (name : Name) {atom : Atom} {word : Word} (h : atom.Spelled word) :
      WeaponItem.Spelled (.tag name.text atom) [.mark .tag, .name name, .mark .has, word]
  | property {property : Property} {words : List Word} (h : property.Spelled words) :
      WeaponItem.Spelled (.property property) words
  | nested (key : Name) {properties : List Property} {words : List Word}
      (h : PropertiesSpelled properties words) :
      WeaponItem.Spelled (.nested key.text properties) (.name key :: words)

inductive Weapon.Spelled : Weapon → List Word → Prop
  | weapon (name : Name) {items : List WeaponItem} {words : List Word}
      (h : BlockSpelled WeaponItem.Spelled items words) :
      Weapon.Spelled ⟨name.text, items⟩ (.word .weapon :: .name name :: words)

/-! ## Maps -/

/-- A team or site, by the word that begins it. -/
inductive Group.Spelled (keyword : Keyword) : Group → List Word → Prop
  | group (name : Name) {properties : List Property} {words : List Word}
      (h : PropertiesSpelled properties words) :
      Group.Spelled keyword ⟨name.text, properties⟩ (.word keyword :: .name name :: words)

inductive MapItem.Spelled : MapItem → List Word → Prop
  | teams {groups : List Group} {words : List Word}
      (h : BlockSpelled (Group.Spelled .team) groups words) :
      MapItem.Spelled (.teams groups) (.word .teams :: words)
  | sites {groups : List Group} {words : List Word}
      (h : BlockSpelled (Group.Spelled .site) groups words) :
      MapItem.Spelled (.sites groups) (.word .sites :: words)
  | callouts {values : List Value} {words : List Word} (h : ListSpelled Value.Spelled values words) :
      MapItem.Spelled (.callouts values) (.word .callouts :: .mark .has :: Blueprint.enclosed words)

/-! ## Documents -/

inductive Section.Spelled : Section → List Word → Prop
  | config {properties : List Property} {words : List Word} (h : PropertiesSpelled properties words) :
      Section.Spelled (.config properties) (.word .config :: words)
  | economy {properties : List Property} {words : List Word} (h : PropertiesSpelled properties words) :
      Section.Spelled (.economy properties) (.word .economy :: words)
  | match {properties : List Property} {words : List Word} (h : PropertiesSpelled properties words) :
      Section.Spelled (.match properties) (.word .match :: words)
  | agents {blocks : List Agent} {words : List Word} (h : BlockSpelled Agent.Spelled blocks words) :
      Section.Spelled (.agents blocks) (.word .agents :: words)
  | weapons {blocks : List Weapon} {words : List Word}
      (h : BlockSpelled Weapon.Spelled blocks words) :
      Section.Spelled (.weapons blocks) (.word .weapons :: words)
  | statusEffects {blocks : List Behaviour} {words : List Word}
      (h : BlockSpelled (Behaviour.Spelled .effect) blocks words) :
      Section.Spelled (.statusEffects blocks) (.word .statusEffects :: words)
  | map (name : Name) {items : List MapItem} {words : List Word}
      (h : BlockSpelled MapItem.Spelled items words) :
      Section.Spelled (.map name.text items) (.word .map :: .name name :: words)

inductive Document.Spelled : Document → List Word → Prop
  | document (name : Name) {sections : List Section} {words : List Word}
      (h : BlockSpelled Section.Spelled sections words) :
      Document.Spelled ⟨name.text, sections⟩ (.word .game :: .name name :: words)

end GameScript.Config
