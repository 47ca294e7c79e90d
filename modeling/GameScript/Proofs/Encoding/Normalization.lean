import GameScript.Proofs.Encoding
import GameScript.Session.Basic
import GameScript.Tree.Printer

/-! # Reading data normalizes it

Reading takes more than writing gives: members that nobody asks for, parts left out, whole numbers,
and any node or list in any place. What has been read is written in one form, though, and reading
that form gives the same node again, whatever the data were that it came from. -/

namespace GameScript.Node

/-! ## What reading gives -/

/-- Whatever a step of reading gives satisfies a condition. -/
def Gives {α : Type} (P : α → Prop) (step : Except Defect α) : Prop := ∀ a, step = .ok a → P a

namespace Gives

variable {α β : Type} {P : α → Prop} {Q : β → Prop}

theorem pure {a : α} (h : P a) : Gives P (.ok a) := by
  intro b hb
  cases hb
  exact h

theorem bind {step : Except Defect α} {next : α → Except Defect β} (h : Gives P step)
    (hnext : ∀ a, P a → Gives Q (next a)) : Gives Q (step >>= next) := by
  intro b hb
  cases step with
  | error => cases hb
  | ok a => exact hnext a (h a rfl) b hb

/-- A step of which nothing is asked. -/
theorem andThen {step : Except Defect α} {next : α → Except Defect β}
    (hnext : ∀ a, Gives Q (next a)) : Gives Q (step >>= next) :=
  (show Gives (fun _ => True) step from fun _ _ => trivial).bind fun a _ => hnext a

end Gives

/-- A constant that has been read is kept when it is read again. -/
theorem literalValue_settled (datum : Json) :
    Gives (fun value => literalValue value = .ok value) (literalValue datum) := by
  intro value h
  cases datum with
  | int n =>
    unfold literalValue at h
    dsimp only at h
    split at h <;> cases h
    rfl
  | _ =>
    cases h
    rfl

/-- A node that reading gave for a member, or the one that stands for a missing member. -/
def Given (parts : Parts) (node : Node) : Prop :=
  node = .absent ∨ ∃ key, Fields.get? parts key = some (.ok node)

theorem part_given (parts : Parts) (key : String) : Gives (Given parts) (part parts key) := by
  intro node h
  unfold part at h
  split at h
  · next hget => exact .inr ⟨key, by rw [hget, h]⟩
  · cases h

theorem partOrAbsent_given (parts : Parts) (key : String) :
    Gives (Given parts) (partOrAbsent parts key) := by
  intro node h
  unfold partOrAbsent at h
  cases hget : Fields.get? parts key with
  | none =>
    rw [hget] at h
    cases h
    exact .inl rfl
  | some result =>
    rw [hget] at h
    exact .inr ⟨key, by rw [hget]; exact congrArg some h⟩

/-- A node whose parts have been read from members, and whose value, if it is a constant, is
kept. -/
structure Assembled (parts : Parts) (node : Node) : Prop where
  value : ∀ value, node = .literal value → literalValue value = .ok value
  children : ∀ child ∈ node.children, Given parts child

theorem ofObject_assembled (members : Fields Json) (parts : Parts) :
    Gives (Assembled parts) (ofObject members parts) := by
  have hpart := part_given parts
  have hoptional := partOrAbsent_given parts
  unfold ofObject
  split
  · -- a constant
    refine .andThen fun datum => (literalValue_settled datum).bind fun value hvalue =>
      .pure ⟨?_, by simp [Node.children]⟩
    intro value' he
    cases he
    exact hvalue
  · exact (hpart _).bind fun _ h₁ => .pure ⟨by simp, by simp [Node.children, h₁]⟩
  · exact .andThen fun _ => (hpart _).bind fun _ h₁ => .pure ⟨by simp, by simp [Node.children, h₁]⟩
  · exact (hpart _).bind fun _ h₁ => .andThen fun _ => (hpart _).bind fun _ h₂ =>
      .pure ⟨by simp, by simp [Node.children, h₁, h₂]⟩
  · exact (hpart _).bind fun _ h₁ => .andThen fun _ => (hpart _).bind fun _ h₂ =>
      .pure ⟨by simp, by simp [Node.children, h₁, h₂]⟩
  · exact .andThen fun _ => .pure ⟨by simp, by simp [Node.children]⟩
  · exact .andThen fun _ => (hpart _).bind fun _ h₁ => .pure ⟨by simp, by simp [Node.children, h₁]⟩
  · exact (hpart _).bind fun _ h₁ => .andThen fun _ => (hpart _).bind fun _ h₂ =>
      .pure ⟨by simp, by simp [Node.children, h₁, h₂]⟩
  · exact .andThen fun _ => (hpart _).bind fun _ h₁ => .pure ⟨by simp, by simp [Node.children, h₁]⟩
  · exact (hpart _).bind fun _ h₁ => .andThen fun _ => (hpart _).bind fun _ h₂ =>
      .pure ⟨by simp, by simp [Node.children, h₁, h₂]⟩
  · exact (hpart _).bind fun _ h₁ => .andThen fun _ => (hpart _).bind fun _ h₂ =>
      (hpart _).bind fun _ h₃ => .pure ⟨by simp, by simp [Node.children, h₁, h₂, h₃]⟩
  · exact (hpart _).bind fun _ h₁ => .pure ⟨by simp, by simp [Node.children, h₁]⟩
  · exact (hpart _).bind fun _ h₁ => .pure ⟨by simp, by simp [Node.children, h₁]⟩
  · exact .andThen fun _ => (hoptional _).bind fun _ h₁ =>
      .pure ⟨by simp, by simp [Node.children, h₁]⟩
  · exact (hpart _).bind fun _ h₁ => .pure ⟨by simp, by simp [Node.children, h₁]⟩
  · exact (hpart _).bind fun _ h₁ => (hpart _).bind fun _ h₂ => (hoptional _).bind fun _ h₃ =>
      .pure ⟨by simp, by simp [Node.children, h₁, h₂, h₃]⟩
  · exact (hpart _).bind fun _ h₁ => (hpart _).bind fun _ h₂ =>
      .pure ⟨by simp, by simp [Node.children, h₁, h₂]⟩
  · exact .andThen fun _ => .andThen fun _ => .andThen fun _ => (hpart _).bind fun _ h₁ =>
      .pure ⟨by simp, by simp [Node.children, h₁]⟩
  · exact .andThen fun _ => (hoptional _).bind fun _ h₁ =>
      .pure ⟨by simp, by simp [Node.children, h₁]⟩
  · intro node h
    cases h

/-! ## Reading again -/

mutual

/-- Every node that has been read is read back from what it is written as. -/
theorem reloads_ofJson : ∀ (datum : Json) {node : Node}, ofJson datum = .ok node → node.Reloads
  | .null, _, h => by
    cases h
    rfl
  | .array items, _, h => by
    have hgives : Gives Reloads (ofJson (.array items)) :=
      Gives.bind (reloads_ofJsons items) fun nodes hnodes => .pure (reloads_sequence hnodes)
    exact hgives _ h
  | .object members, _, h => by
    obtain ⟨hvalue, hchildren⟩ := ofObject_assembled members (partsOf members) _ h
    refine reloads_of_children hvalue fun child hc => ?_
    rcases hchildren child hc with rfl | ⟨key, hpart⟩
    · rfl
    · exact reloads_partsOf members hpart
  | .bool _, _, h | .int _, _, h | .number _, _, h | .string _, _, h => nomatch h

theorem reloads_ofJsons : ∀ (items : List Json) (nodes : List Node), ofJsons items = .ok nodes →
    ∀ node ∈ nodes, node.Reloads
  | [], _, h => by
    cases h
    nofun
  | item :: rest, _, h => by
    have hgives : Gives (fun nodes => ∀ node ∈ nodes, node.Reloads) (ofJsons (item :: rest)) :=
      Gives.bind (fun _ hitem => reloads_ofJson item hitem) fun node hnode =>
        Gives.bind (reloads_ofJsons rest) fun nodes hnodes =>
          .pure (List.forall_mem_cons.mpr ⟨hnode, hnodes⟩)
    exact hgives _ h

theorem reloads_partsOf : ∀ (members : List (String × Json)) {key : String} {node : Node},
    Fields.get? (partsOf members) key = some (.ok node) → node.Reloads
  | [], _, _, h => nomatch h
  | (name, value) :: rest, key, node, h => by
    rw [partsOf, Fields.get?] at h
    split at h
    · exact reloads_ofJson value (Option.some.inj h)
    · exact reloads_partsOf rest h

end

theorem ofJsonWithin_eq_ok {limits : Limits} {datum : Json} {node : Node} :
    ofJsonWithin limits datum = .ok node ↔
      ofJson datum = .ok node ∧ node.isWithin limits = true := by
  unfold ofJsonWithin
  cases ofJson datum with
  | error => exact ⟨nofun, nofun⟩
  | ok found =>
    change (if found.isWithin limits = true then Except.ok found else Except.error Defect.tooDeep) =
      Except.ok node ↔ _
    split
    · next hw =>
      simp only [Except.ok.injEq]
      constructor
      · rintro rfl
        exact ⟨rfl, hw⟩
      · exact fun h => h.1
    · next hw =>
      simp only [reduceCtorEq, Except.ok.injEq, false_iff]
      rintro ⟨rfl, hw'⟩
      exact hw hw'

/-- Data read as a node and written as data again. -/
def normalize (limits : Limits) (datum : Json) : Except Defect Json := do
  toJsonWithin limits (← ofJsonWithin limits datum)

/-- The data of a program with these statements. -/
def programData (statements : Json) : Json :=
  .object [("type", .string "Program"), ("statements", statements)]

/-- The statements that a node lists, in prefix form. -/
def renderItems (limits : Limits) (program : Node) : Except Defect (List String) :=
  match program.items? with
  | some statements => renderProgram limits statements
  | none => throw .wrongShape

/-- Whatever has been read can be written, and is read again as it was. So writing what was read
gives a form that stays the same, and a program that is read from it is the same program. Its
statements are shown in the same way, whichever of the two they are read from, and run in the same
way. -/
theorem ofJson_normalizes {limits : Limits} {datum : Json} {node : Node}
    (h : ofJsonWithin limits datum = .ok node) :
    ∃ written, toJsonWithin limits node = .ok written ∧ ofJsonWithin limits written = .ok node ∧
      normalize limits datum = .ok written ∧ normalize limits written = .ok written ∧
      ∀ members, Fields.get? members "type" = some (.string "Program") →
        Fields.get? members "statements" = some datum →
        programOfJson limits (.object members) = .ok node ∧
          programOfJson limits (programData written) = .ok node ∧
          (∀ statements, node = .sequence statements →
            programToJson limits statements = .ok (programData written) ∧
              ∀ printing, (programOfJson limits (programData written)).bind (renderItems printing) =
                renderProgram printing statements) ∧
          (∀ printing, (programOfJson limits (programData written)).bind (renderItems printing) =
            (programOfJson limits (.object members)).bind (renderItems printing)) ∧
          ∀ session : Session,
            (programOfJson limits (programData written)).map session.interpretNode =
              (programOfJson limits (.object members)).map session.interpretNode := by
  obtain ⟨hread, hwithin⟩ := ofJsonWithin_eq_ok.mp h
  have hwrite : toJsonWithin limits node = .ok node.toJson := if_pos hwithin
  have hagain : ofJsonWithin limits node.toJson = .ok node :=
    ofJsonWithin_eq_ok.mpr ⟨reloads_ofJson datum hread, hwithin⟩
  refine ⟨node.toJson, hwrite, hagain, ?_, ?_, fun members htype hstatements => ?_⟩
  · rw [normalize, h]
    exact hwrite
  · rw [normalize, hagain]
    exact hwrite
  · have hfirst : programOfJson limits (.object members) = .ok node := by
      rw [programOfJson, htype]
      simp only [Token.member, hstatements]
      exact h
    have hsecond : programOfJson limits (programData node.toJson) = .ok node := hagain
    refine ⟨hfirst, hsecond, ?_, fun printing => by rw [hfirst, hsecond],
      fun session => by rw [hfirst, hsecond]⟩
    rintro statements rfl
    constructor
    · rw [programToJson, hwrite]
      rfl
    · intro printing
      rw [hsecond]
      rfl

/-- A variable without a value, with a member that nobody asks for and a token without a literal. -/
def handWrittenVar : Json :=
  .object [("remark", .bool true), ("type", .string "Var"),
    ("name", .object [("line", .int 7), ("lexeme", .string "x"), ("kind", .string "IDENTIFIER")])]

/-- A whole number, which no program is written as. -/
def handWrittenWhole : Json := .object [("type", .string "Literal"), ("value", .int (-2))]

def handWrittenPrint (expression : Json) : Json :=
  .object [("type", .string "Print"), ("expression", expression)]

/-- Data that no program is written as, with a list where an expression should be. -/
def handWritten : Json :=
  .array [handWrittenVar, handWrittenPrint (.array [.null, handWrittenWhole])]

/-- Data that no program is written as, of statements that can be shown. -/
def handPrinted : Json := .array [handWrittenVar, handWrittenPrint handWrittenWhole]

theorem handWritten_normalizes :
    (∃ node written, ofJsonWithin .standard handWritten = .ok node ∧
      normalize .standard handWritten = .ok written ∧ ofJsonWithin .standard written = .ok node ∧
      normalize .standard written = .ok written) ∧
    ∃ written, normalize .standard handPrinted = .ok written ∧
      (programOfJson .standard (programData written)).bind (renderItems .standard) =
        .ok ["(var x)", "(print -2)"] := by
  constructor
  · obtain ⟨node, hnode⟩ : ∃ node, ofJsonWithin .standard handWritten = .ok node := ⟨_, rfl⟩
    obtain ⟨written, -, hagain, hfirst, hsecond, -⟩ := ofJson_normalizes hnode
    exact ⟨node, written, hnode, hfirst, hagain, hsecond⟩
  · obtain ⟨node, hnode⟩ : ∃ node, ofJsonWithin .standard handPrinted = .ok node := ⟨_, rfl⟩
    obtain ⟨written, -, -, hfirst, -, hprogram⟩ := ofJson_normalizes hnode
    obtain ⟨hread, -, -, hshown, -⟩ :=
      hprogram [("type", .string "Program"), ("statements", handPrinted)] rfl rfl
    refine ⟨written, hfirst, ?_⟩
    rw [hshown]
    decide +kernel

end GameScript.Node
