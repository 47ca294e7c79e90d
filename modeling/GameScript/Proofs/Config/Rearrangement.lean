import GameScript.Proofs.Config.Grammar

/-! # Games whose sources are rearranged

How items of different kinds stand among each other, and into how many parts the blocks of one kind are
split, makes no difference to a game. -/

namespace GameScript.Config

open Blueprint (LaidOut)

/-- The parameters of a step are the same if all of them stand behind `WITH`. -/
theorem Step.toJson_behindWith {room : Nat} (step : Step) (datum : Json) :
    step.toJson room = .ok datum ↔
      Step.toJson room ⟨step.action, step.target, [], step.arguments ++ step.modifiers⟩ =
        .ok datum := by
  have h : step.Alike ⟨step.action, step.target, [], step.arguments ++ step.modifiers⟩ :=
    ⟨rfl, rfl, rfl⟩
  rw [toJson_eq_ok_iff, toJson_eq_ok_iff]
  exact ⟨h.denotes, (h.cross (.refl step)).denotes⟩

/-- Every source of a document that is alike compiles to the same game, be the document read from it or
spelled out in it. In every dictionary of the game each key stands once, at the place where it is
written first, with the value that is written last. -/
theorem compile_rearranged {limits : Limits} {source : String} {document : Document} {game : Game}
    (hparse : Document.parse source = .ok document) (hgame : compile limits source = .ok game) :
    (∀ other words (source' : String), document.Alike other → other.Spelled words →
      LaidOut words source'.toList → compile limits source' = .ok game) ∧
    (∀ other source', document.Alike other → Document.parse source' = .ok other →
      compile limits source' = .ok game) ∧
    (∀ (step : Step) datum, step.toJson limits.listing = .ok datum ↔
      Step.toJson limits.listing ⟨step.action, step.target, [], step.arguments ++ step.modifiers⟩ =
        .ok datum) ∧
    document.Denotes limits.listing game.datum := by
  refine ⟨fun other words source' halike hspelled hlaid => ?_,
    fun other source' halike hparse' => halike.compile hparse hparse' hgame,
    Step.toJson_behindWith, ?_⟩
  · obtain ⟨found, hparse', hfound⟩ := parse_spelled hspelled hlaid
    exact (halike.trans hfound).compile hparse hparse' hgame
  · obtain ⟨found, hparse', hdatum, -⟩ := compile_eq_ok_iff.mp hgame
    cases hparse.symm.trans hparse'
    exact hdatum

/-! ## Stats in two blocks -/

/-- Words with a blank behind each of them. -/
def spacedOut (words : List Word) : List Char := words.flatMap fun word => word.chars ++ [' ']

theorem laidOut_spacedOut (words : List Word) : LaidOut words (spacedOut words) := by
  have hends (word : Word) (text : List Char) : word.Ends (' ' :: text) := by
    have hstops : Blueprint.Stops (' ' :: text) :=
      Blueprint.stops_of_break (by simp [Blueprint.breaks])
    cases word with
    | mark | quoted => trivial
    | word | name | bare | number => exact hstops
  have hbehind (gap : List Char) (hgap : Blueprint.Spacing gap) :
      LaidOut words (gap ++ spacedOut words) := by
    induction words generalizing gap with
    | nil => exact .ending (.spacing (by simpa [spacedOut] using hgap))
    | cons word words ih =>
      rw [spacedOut, List.flatMap_cons, List.append_assoc]
      exact .token hgap (hends word _) (ih [' '] (.blank rfl .nil))
  exact hbehind [] .nil

theorem laidOut_source {words : List Word} {source : String}
    (h : source.toList = spacedOut words) : LaidOut words source.toList := h ▸ laidOut_spacedOut words

def health : Blueprint.Name := { first := 'h', rest := ['p'], isStart := rfl }

def statOf (digit : Char) : Property := ⟨health.text, .number (String.ofList [digit])⟩

/-- The words of one value for the health. -/
def statWords (digit : Char) (h : Lexeme.numeral [digit] = [digit] := by decide) : List Word :=
  [.name health, .mark .has, .number [digit] none (by simp) h]

theorem stat_spelled {digit : Char} (h : Lexeme.numeral [digit] = [digit]) :
    (statOf digit).Spelled (statWords digit h) := .property health (.number (by simp) h)

/-- A game with one agent. -/
def oneAgent (items : List AgentItem) : Document := ⟨health.text, [.agents [⟨health.text, items⟩]]⟩

def oneAgentWords (rows : List (List Word)) : List Word :=
  .word .game :: .name health :: Blueprint.enclosed (.word .agents :: Blueprint.enclosed
    (.word .agent :: .name health :: Blueprint.enclosed rows.flatten))

theorem oneAgent_spelled {items : List AgentItem} {rows : List (List Word)}
    (h : List.Forall₂ AgentItem.Spelled items rows) :
    (oneAgent items).Spelled (oneAgentWords rows) := by
  have hagent := Agent.Spelled.agent health ⟨rows, h, rfl⟩
  have hagents := Section.Spelled.agents ⟨[_], .cons hagent .nil, rfl⟩
  have hgame := Document.Spelled.document health ⟨[_], .cons hagents .nil, rfl⟩
  simpa [oneAgent, oneAgentWords] using hgame

/-- The health is written twice in one block. -/
def statsTogether : List AgentItem :=
  [.stats [statOf '1', statOf '2'], .tag health.text (.plain health.text)]

def togetherSource : String := "GAME hp [ AGENTS [ AGENT hp [ STATS [ hp :: 1 hp :: 2 ] @ hp :: hp ] ] ] "

/-- It is written in two blocks with a tag between them. -/
def statsApart : List AgentItem :=
  [.stats [statOf '1'], .tag health.text (.plain health.text), .stats [statOf '2']]

def apartSource : String :=
  "GAME hp [ AGENTS [ AGENT hp [ STATS [ hp :: 1 ] @ hp :: hp STATS [ hp :: 2 ] ] ] ] "

theorem statsApart_compiled :
    ∃ game, compile .standard togetherSource = .ok game ∧ compile .standard apartSource = .ok game := by
  have htag : AgentItem.Spelled (.tag health.text (.plain health.text)) _ :=
    .tag health (.name health)
  have htogether : (oneAgent statsTogether).Spelled _ :=
    oneAgent_spelled (.cons (.stats ⟨[statWords '1', statWords '2'],
      .cons (stat_spelled _) (.cons (stat_spelled _) .nil), rfl⟩) (.cons htag .nil))
  have hapart : (oneAgent statsApart).Spelled _ :=
    oneAgent_spelled (.cons (.stats ⟨[statWords '1'], .cons (stat_spelled _) .nil, rfl⟩)
      (.cons htag (.cons (.stats ⟨[statWords '2'], .cons (stat_spelled _) .nil, rfl⟩) .nil)))
  obtain ⟨found, hparse, hfound⟩ : ∃ found, Document.parse togetherSource = .ok found ∧ _ :=
    parse_spelled htogether (laidOut_source (by decide +kernel))
  have halike : (oneAgent statsTogether).Alike (oneAgent statsApart) :=
    ⟨rfl, .cons (.agents (.cons ⟨rfl, rfl, rfl, .nil⟩ .nil)) .nil⟩
  have hok : (compile .standard togetherSource).isOk := by decide +kernel
  cases hgame : compile .standard togetherSource with
  | error error =>
    rw [hgame] at hok
    cases hok
  | ok game =>
    obtain ⟨hspelled, -⟩ := compile_rearranged hparse hgame
    exact ⟨game, rfl, hspelled _ _ apartSource (hfound.cross halike) hapart
      (laidOut_source (by decide +kernel))⟩

end GameScript.Config
