import GameScript.Proofs.Safety.Tree
import GameScript.Tree.Encoding

/-! # Trees survive being written as data

A tree of a program is read back from its data as it was: every part, whether it is there or not,
and every token with all that it holds. -/

namespace GameScript

@[simp] theorem Token.ofJson_toJson (token : Token) : Token.ofJson token.toJson = .ok token := by
  have hk : Token.kindOf (.string token.kind.name) = .ok token.kind := by
    simp only [Token.kindOf, TokenKind.ofName?_name]
    rfl
  simp only [Token.toJson, Token.ofJson, Token.member, Fields.get?]
  simp [hk]

theorem Token.mapM_ofJson (tokens : List Token) :
    (tokens.map Token.toJson).mapM Token.ofJson = .ok tokens := by
  induction tokens with
  | nil => rfl
  | cons token tokens ih =>
    rw [List.map_cons, List.mapM_cons, ofJson_toJson, ih]
    rfl

namespace Node

/-- A node that is read back from its data as it was. -/
def Reloads (node : Node) : Prop := ofJson node.toJson = .ok node

theorem ofJsons_toJsons {nodes : List Node} (h : ∀ node ∈ nodes, node.Reloads) :
    ofJsons (toJsons nodes) = .ok nodes := by
  induction nodes with
  | nil => rfl
  | cons node rest ih =>
    rw [toJsons, ofJsons, h node (by simp), ih fun node hn => h node (by simp [hn])]
    rfl

theorem paramsOf_toJson (params : List Token) :
    paramsOf (.array (params.map Token.toJson)) = .ok params := Token.mapM_ofJson params

/-- The nodes right below a node. -/
def children : Node → List Node
  | .literal _ | .variable _ | .absent => []
  | .grouping inner | .expression inner | .print inner => [inner]
  | .unary _ right => [right]
  | .binary left _ right | .logical left _ right => [left, right]
  | .assign _ value | .var _ value | .giveBack _ value => [value]
  | .call callee _ arguments => [callee, arguments]
  | .array _ elements => [elements]
  | .indexGet target _ index => [target, index]
  | .indexSet target _ index value => [target, index, value]
  | .block statements => [statements]
  | .ifElse condition thenBranch elseBranch => [condition, thenBranch, elseBranch]
  | .whileLoop condition body => [condition, body]
  | .function _ _ body => [body]
  | .sequence items => items

/-- A node is read back if the nodes below it are. A constant must be one that reading keeps. -/
theorem reloads_of_children {node : Node}
    (hvalue : ∀ value, node = .literal value → literalValue value = .ok value)
    (h : ∀ child ∈ node.children, child.Reloads) : node.Reloads := by
  unfold Reloads at h ⊢
  cases node with
  | sequence items =>
    rw [toJson, ofJson, ofJsons_toJsons (show ∀ node ∈ items, node.Reloads from h)]
    rfl
  | absent => rfl
  | literal value =>
    simp [toJson, ofJson, ofObject, Fields.get?, Token.member, hvalue value rfl]
  | grouping | expression | print | block =>
    simp only [children, List.forall_mem_cons] at h
    simp [toJson, ofJson, ofObject, partsOf, Fields.get?, part, h.1]
  | unary | assign | array | function =>
    simp only [children, List.forall_mem_cons] at h
    simp [toJson, ofJson, ofObject, partsOf, Fields.get?, part, tokenAt, Token.member,
      paramsOf_toJson, h.1]
    rfl
  | var | giveBack =>
    simp only [children, List.forall_mem_cons] at h
    simp [toJson, ofJson, ofObject, partsOf, Fields.get?, partOrAbsent, tokenAt, Token.member, h.1]
    rfl
  | binary | logical | call | indexGet =>
    simp only [children, List.forall_mem_cons] at h
    simp [toJson, ofJson, ofObject, partsOf, Fields.get?, part, tokenAt, Token.member, h.1, h.2.1]
    rfl
  | whileLoop =>
    simp only [children, List.forall_mem_cons] at h
    simp [toJson, ofJson, ofObject, partsOf, Fields.get?, part, h.1, h.2.1]
    rfl
  | indexSet =>
    simp only [children, List.forall_mem_cons] at h
    simp [toJson, ofJson, ofObject, partsOf, Fields.get?, part, tokenAt, Token.member, h.1, h.2.1,
      h.2.2.1]
    rfl
  | ifElse =>
    simp only [children, List.forall_mem_cons] at h
    simp [toJson, ofJson, ofObject, partsOf, Fields.get?, part, partOrAbsent, h.1, h.2.1, h.2.2.1]
    rfl
  | _ => simp [toJson, ofJson, ofObject, Fields.get?, tokenAt, Token.member]

theorem reloads_sequence {nodes : List Node} (h : ∀ node ∈ nodes, node.Reloads) :
    (sequence nodes).Reloads := reloads_of_children nofun h

/-! ## The trees of programs -/

theorem literalValue_of_isConstant {value : Json} (h : IsConstant value) :
    literalValue value = .ok value := by
  cases value with
  | int => exact h.elim
  | _ => rfl

variable {W : Token → Prop}

theorem reloads_expression {node : Node} (h : IsExpression W node) : node.Reloads := by
  induction h with
  | literal hv =>
    refine reloads_of_children (fun value he => ?_) nofun
    cases he
    exact literalValue_of_isConstant hv
  | reference => exact reloads_of_children nofun nofun
  | call _ _ _ _ hc ha =>
    exact reloads_of_children nofun (by simp [children, hc, reloads_sequence ha])
  | array _ _ he => exact reloads_of_children nofun (by simp [children, reloads_sequence he])
  | _ => exact reloads_of_children nofun (by simp [children, *])

/-- A part that may be missing. -/
theorem reloads_optional {node : Node} (h : node = .absent ∨ IsExpression W node) :
    node.Reloads := by
  rcases h with rfl | h
  · rfl
  · exact reloads_expression h

theorem reloads_statement {node : Node} (h : IsStatement W node) : node.Reloads := by
  have habsent : absent.Reloads := rfl
  induction h with
  | expression hi | print hi =>
    exact reloads_of_children nofun (by simp [children, reloads_expression hi])
  | var _ hv | giveBack _ hv =>
    exact reloads_of_children nofun (by simp [children, reloads_optional hv])
  | block _ hb | function _ _ _ hb =>
    exact reloads_of_children nofun (by simp [children, reloads_sequence hb])
  | ifThen hc | ifElse hc | whileLoop hc =>
    exact reloads_of_children nofun (by simp [children, reloads_expression hc, *])

/-- A program that does not nest too deeply can be written as data, and is read back as it was. -/
theorem programOfJson_programToJson {statements : List Node}
    (h : ∀ node ∈ statements, IsStatement W node) {limits : Limits}
    (hw : (sequence statements).isWithin limits) :
    ∃ datum, programToJson limits statements = .ok datum ∧
      programOfJson limits datum = .ok (.sequence statements) := by
  have hread : ofJson (sequence statements).toJson = .ok (.sequence statements) :=
    reloads_sequence fun node hn => reloads_statement (h node hn)
  refine ⟨_, by rw [programToJson, toJsonWithin, if_pos hw]; rfl, ?_⟩
  simp [programOfJson, Fields.get?, Token.member, ofJsonWithin, hread]
  exact if_pos hw

end Node

end GameScript
