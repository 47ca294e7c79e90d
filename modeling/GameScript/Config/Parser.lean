import GameScript.Config.Document
import GameScript.Config.Reader

/-! From the source of a game configuration to its document.

The grammar needs one lexeme of lookahead. What is expected after a construct does not depend on
where the construct stands; a lexeme that fits only another such place is reported when its own
place is known. -/

namespace GameScript.Config

namespace Read

/-! ## Values -/

/-- The text of a number without the unit at its end. -/
def withoutUnit (lexeme : Lexeme) : String := String.ofList lexeme.text.toList.dropLast

/-- The value of a lexeme that is a value by itself. -/
def simpleValue? (lexeme : Lexeme) : Option Value :=
  match lexeme.terminal with
  | .number => some (.number lexeme.text)
  | .duration => some (.duration (withoutUnit lexeme))
  | .percentage => some (.percentage (withoutUnit lexeme))
  | .quoted => some (.quoted lexeme.text)
  | .name => some (.word lexeme.text)
  | .word .yes | .word .upperTrue | .word .lowerTrue => some (.flag true)
  | .word .no | .word .upperFalse | .word .lowerFalse => some (.flag false)
  | _ => none

/-- A value. Lists nest at most as deeply as there are characters. -/
def value : Nat → Read Value
  | 0 => unexpected
  | depth + 1 => do
    if (← peek) = some Expected.openBracket then
      discard <| take Expected.listItems
      return .list (← list (value depth) .closeBracket Expected.values Expected.afterList)
    else
      match (← get).next.bind simpleValue? with
      | some value =>
        discard <| take Expected.afterValue
        pure value
      | none => unexpected

/-- A value after the mark that announces it. -/
def valueAfterHas : Read Value := do
  discard <| expect (.mark .has) Expected.values
  value ((← remaining) + 1)

/-- A property in a block that holds nothing else, or an argument. -/
def property : Read Property := do
  let key ← name Expected.has
  return ⟨key, ← valueAfterHas⟩

/-- A block of properties, and what may follow it. -/
def properties (after : Expected) : Read (List Property) :=
  block Expected.properties after property

/-! ## Behaviour -/

/-- The arguments of a step, if it has any. -/
def arguments : Read (List Property) := do
  if (← peek) = some (.mark .openParen) then
    discard <| take [.name, .mark .closeParen]
    list property .closeParen Expected.names Expected.afterArguments
  else pure []

/-- The modifiers of a step, if it has any. -/
def modifiers : Read (List Property) := do
  if (← peek) = some (.word .with) then
    discard <| take Expected.opening
    properties Expected.afterStep
  else pure []

def step : Read Step := do
  let action ← name [.mark .onto]
  discard <| expect (.mark .onto) Expected.names
  let target ← name Expected.afterTarget
  let arguments ← arguments
  return ⟨action, target, arguments, ← modifiers⟩

/-- The steps of a pipeline, at least one. -/
def stepsFrom : Nat → List Step → Read (List Step)
  | 0, _ => unexpected
  | fuel + 1, done => do
    let next ← step
    if (← peek) = some (.mark .then) then
      discard <| take Expected.names
      stepsFrom fuel (next :: done)
    else pure (next :: done).reverse

def behaviourItem : Read BehaviourItem := do
  if (← peek) = some (.mark .tag) then
    discard <| take Expected.names
    return .decorator (← name Expected.taggedItems)
  else
    let first ← expect .name [.mark .has, .mark .then]
    if (← peek) = some (.mark .then) then
      discard <| take Expected.names
      return .trigger ⟨first.text, first.position.line, ← stepsFrom ((← remaining) + 1) []⟩
    else return .property ⟨first.text, ← valueAfterHas⟩

/-- An ability or effect, after the word that begins it. -/
def behaviour (keyword : Keyword) : Read Behaviour := do
  discard <| expect (.word keyword) Expected.names
  let title ← name Expected.opening
  return ⟨title, ← block Expected.taggedItems (Expected.blocks keyword) behaviourItem⟩

/-! ## Agents -/

def atom : Read Atom := do
  match (← get).next with
  | some lexeme =>
    match lexeme.terminal with
    | .name | .number =>
      discard <| take Expected.afterAtom
      pure (.plain lexeme.text)
    | .quoted =>
      discard <| take Expected.afterAtom
      pure (.quoted lexeme.text)
    | _ => unexpected
  | none => unexpected

/-- A tag with its value, after the mark that begins it. -/
def tagRest : Read (String × Atom) := do
  let title ← name Expected.has
  discard <| expect (.mark .has) Expected.atoms
  return (title, ← atom)

def agentItem : Read AgentItem := do
  match ← peek with
  | some (.mark .tag) =>
    discard <| take Expected.names
    let (title, atom) ← tagRest
    pure (.tag title atom)
  | some (.word .stats) =>
    discard <| take Expected.opening
    return .stats (← properties Expected.agentItems)
  | some (.word .abilities) =>
    discard <| take Expected.opening
    return .abilities
      (← block (Expected.blocks .ability) Expected.agentItems (behaviour .ability))
  | _ => unexpected

def agent : Read Agent := do
  discard <| expect (.word .agent) Expected.names
  let title ← name Expected.opening
  return ⟨title, ← block Expected.agentItems (Expected.blocks .agent) agentItem⟩

/-! ## Weapons -/

def weaponItem : Read WeaponItem := do
  if (← peek) = some (.mark .tag) then
    discard <| take Expected.names
    let (title, atom) ← tagRest
    pure (.tag title atom)
  else
    let key ← name [.mark .has, Expected.openBracket]
    if (← peek) = some Expected.openBracket then
      return .nested key (← properties Expected.taggedItems)
    else return .property ⟨key, ← valueAfterHas⟩

def weapon : Read Weapon := do
  discard <| expect (.word .weapon) Expected.names
  let title ← name Expected.opening
  return ⟨title, ← block Expected.taggedItems (Expected.blocks .weapon) weaponItem⟩

/-! ## Maps -/

/-- A team or site. -/
def group (keyword : Keyword) : Read Group := do
  discard <| expect (.word keyword) Expected.names
  let title ← name Expected.opening
  return ⟨title, ← properties (Expected.blocks keyword)⟩

/-- The values of the callouts, after the word that begins them. -/
def calloutValues : Read (List Value) := do
  discard <| expect (.mark .has) Expected.opening
  discard <| expect Expected.openBracket Expected.listItems
  list (do value ((← remaining) + 1)) .closeBracket Expected.values Expected.afterList

def mapItem : Read MapItem := do
  match ← peek with
  | some (.word .teams) =>
    discard <| take Expected.opening
    return .teams (← block (Expected.blocks .team) Expected.mapItems (group .team))
  | some (.word .sites) =>
    discard <| take Expected.opening
    return .sites (← block (Expected.blocks .site) Expected.mapItems (group .site))
  | some (.word .callouts) =>
    discard <| take Expected.has
    return .callouts (← calloutValues)
  | _ => unexpected

/-! ## Sections -/

def sectionBlock : Read Section := do
  match ← peek with
  | some (.word .config) =>
    discard <| take Expected.opening
    return .config (← properties Expected.sections)
  | some (.word .economy) =>
    discard <| take Expected.opening
    return .economy (← properties Expected.sections)
  | some (.word .match) =>
    discard <| take Expected.opening
    return .match (← properties Expected.sections)
  | some (.word .agents) =>
    discard <| take Expected.opening
    return .agents (← block (Expected.blocks .agent) Expected.sections agent)
  | some (.word .weapons) =>
    discard <| take Expected.opening
    return .weapons (← block (Expected.blocks .weapon) Expected.sections weapon)
  | some (.word .statusEffects) =>
    discard <| take Expected.opening
    return .statusEffects (← block (Expected.blocks .effect) Expected.sections (behaviour .effect))
  | some (.word .map) =>
    discard <| take Expected.names
    let title ← name Expected.opening
    return .map title (← block Expected.mapItems Expected.sections mapItem)
  | _ => unexpected

/-- A whole document. Nothing follows its closing bracket. -/
def document : Read Document := do
  discard <| expect (.word .game) Expected.names
  let title ← name Expected.opening
  let sections ← block Expected.sections [] sectionBlock
  if (← peek).isSome then unexpected else pure ⟨title, sections⟩

end Read

/-- The document of a source. -/
def Document.parse (source : String) : Except Error Document := do
  let reader ← Reader.fetch source.toList .start .start [.word .game]
  match Read.document reader with
  | .ok document _ => pure document
  | .error error _ => throw error

end GameScript.Config
