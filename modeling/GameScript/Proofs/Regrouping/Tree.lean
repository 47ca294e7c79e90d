import Mathlib.Data.List.Forall2
import GameScript.Store

/-! # Trees that differ in their groupings only

A grouping says where parentheses stood in a source. `ungrouped` takes them off an expression and
`ungroupedStatement` off a statement, in the bodies of functions too.

A `Regrouping` is a relation between trees that are the same but for groupings, told by what holds at
the roots of two trees that are related. It also says how many more groupings in a row the second tree
may have: whoever walks down both trees passes so many more nodes of the second one at most. Equality
is such a relation, and so is taking groupings off, read in either direction. -/

namespace GameScript

theorem forall₂_trans {α β γ : Type} {R : α → β → Prop} {R' : β → γ → Prop} {R'' : α → γ → Prop}
    (hR : ∀ a b c, R a b → R' b c → R'' a c) {as : List α} {bs : List β} {cs : List γ}
    (h : List.Forall₂ R as bs) (h' : List.Forall₂ R' bs cs) : List.Forall₂ R'' as cs := by
  induction h generalizing cs with
  | nil =>
    cases h'
    exact .nil
  | cons ha _ ih =>
    cases h' with
    | cons hb hbs => exact .cons (hR _ _ _ ha hb) (ih hbs)

namespace Node

/-! ## Taking groupings off -/

mutual

/-- An expression without its groupings. Parentheses around nothing are no expression and stay. -/
def ungrouped : Node → Node
  | .grouping .absent => .grouping .absent
  | .grouping inner => inner.ungrouped
  | .unary operator right => .unary operator right.ungrouped
  | .binary left operator right => .binary left.ungrouped operator right.ungrouped
  | .logical left operator right => .logical left.ungrouped operator right.ungrouped
  | .assign name value => .assign name value.ungrouped
  | .call callee paren arguments => .call callee.ungrouped paren arguments.ungroupedParts
  | .array bracket elements => .array bracket elements.ungroupedParts
  | .indexGet target bracket index => .indexGet target.ungrouped bracket index.ungrouped
  | .indexSet target bracket index value =>
    .indexSet target.ungrouped bracket index.ungrouped value.ungrouped
  | node => node
termination_by structural node => node

/-- The arguments of a call or the elements of an array without their groupings. -/
def ungroupedParts : Node → Node
  | .sequence items => .sequence (ungroupedAll items)
  | node => node
termination_by structural node => node

def ungroupedAll : List Node → List Node
  | [] => []
  | node :: rest => node.ungrouped :: ungroupedAll rest
termination_by structural nodes => nodes

end

mutual

/-- A statement without the groupings of its expressions. -/
def ungroupedStatement : Node → Node
  | .expression inner => .expression inner.ungrouped
  | .print inner => .print inner.ungrouped
  | .var name initializer => .var name initializer.ungrouped
  | .block statements => .block statements.ungroupedBody
  | .ifElse condition thenBranch elseBranch =>
    .ifElse condition.ungrouped thenBranch.ungroupedStatement elseBranch.ungroupedStatement
  | .whileLoop condition body => .whileLoop condition.ungrouped body.ungroupedStatement
  | .function name params body => .function name params body.ungroupedBody
  | .giveBack keyword value => .giveBack keyword value.ungrouped
  | node => node
termination_by structural node => node

/-- The statements of a block or a function without their groupings. -/
def ungroupedBody : Node → Node
  | .sequence items => .sequence (ungroupedStatements items)
  | node => node
termination_by structural node => node

def ungroupedStatements : List Node → List Node
  | [] => []
  | node :: rest => node.ungroupedStatement :: ungroupedStatements rest
termination_by structural nodes => nodes

end

theorem eq_absent {node : Node} (h : node.isAbsent = true) : node = .absent := by
  cases node <;> first | rfl | cases h

theorem ungrouped_grouping {inner : Node} (h : inner.isAbsent = false) :
    (Node.grouping inner).ungrouped = inner.ungrouped := by
  cases inner <;> first | rfl | cases h

/-- An expression is not lost with its groupings. -/
theorem ungrouped_isAbsent : ∀ node : Node, node.ungrouped.isAbsent = node.isAbsent
  | .grouping inner => by
    cases ha : inner.isAbsent with
    | true => rw [eq_absent ha]; rfl
    | false => rw [ungrouped_grouping ha, ungrouped_isAbsent inner, ha]; rfl
  | .literal _ | .unary _ _ | .binary _ _ _ | .logical _ _ _ | .variable _ | .assign _ _
  | .call _ _ _ | .array _ _ | .indexGet _ _ _ | .indexSet _ _ _ _ | .expression _ | .print _
  | .var _ _ | .block _ | .ifElse _ _ _ | .whileLoop _ _ | .function _ _ _ | .giveBack _ _
  | .absent | .sequence _ => rfl

theorem ungroupedAll_eq (nodes : List Node) : ungroupedAll nodes = nodes.map ungrouped := by
  induction nodes with
  | nil => rfl
  | cons node rest ih => rw [ungroupedAll, ih, List.map_cons]

theorem ungroupedStatements_eq (nodes : List Node) :
    ungroupedStatements nodes = nodes.map ungroupedStatement := by
  induction nodes with
  | nil => rfl
  | cons node rest ih => rw [ungroupedStatements, ih, List.map_cons]

mutual

/-- An expression without groupings stays as it is. -/
theorem ungrouped_ungrouped : ∀ node : Node, node.ungrouped.ungrouped = node.ungrouped
  | .grouping inner => by
    cases ha : inner.isAbsent with
    | true => rw [eq_absent ha]; rfl
    | false => rw [ungrouped_grouping ha, ungrouped_ungrouped inner]
  | .unary _ right => by simp only [ungrouped, ungrouped_ungrouped right]
  | .binary left _ right | .logical left _ right => by
    simp only [ungrouped, ungrouped_ungrouped left, ungrouped_ungrouped right]
  | .assign _ value => by simp only [ungrouped, ungrouped_ungrouped value]
  | .call callee _ arguments => by
    simp only [ungrouped, ungrouped_ungrouped callee, ungroupedParts_ungroupedParts arguments]
  | .array _ elements => by simp only [ungrouped, ungroupedParts_ungroupedParts elements]
  | .indexGet target _ index => by
    simp only [ungrouped, ungrouped_ungrouped target, ungrouped_ungrouped index]
  | .indexSet target _ index value => by
    simp only [ungrouped, ungrouped_ungrouped target, ungrouped_ungrouped index,
      ungrouped_ungrouped value]
  | .literal _ | .variable _ | .expression _ | .print _ | .var _ _ | .block _ | .ifElse _ _ _
  | .whileLoop _ _ | .function _ _ _ | .giveBack _ _ | .absent | .sequence _ => rfl
termination_by structural node => node

theorem ungroupedParts_ungroupedParts :
    ∀ node : Node, node.ungroupedParts.ungroupedParts = node.ungroupedParts
  | .sequence items => by simp only [ungroupedParts, ungroupedAll_ungroupedAll items]
  | .literal _ | .grouping _ | .unary _ _ | .binary _ _ _ | .logical _ _ _ | .variable _
  | .assign _ _ | .call _ _ _ | .array _ _ | .indexGet _ _ _ | .indexSet _ _ _ _ | .expression _
  | .print _ | .var _ _ | .block _ | .ifElse _ _ _ | .whileLoop _ _ | .function _ _ _
  | .giveBack _ _ | .absent => rfl
termination_by structural node => node

theorem ungroupedAll_ungroupedAll :
    ∀ nodes : List Node, ungroupedAll (ungroupedAll nodes) = ungroupedAll nodes
  | [] => rfl
  | node :: rest => by
    simp only [ungroupedAll, ungrouped_ungrouped node, ungroupedAll_ungroupedAll rest]
termination_by structural nodes => nodes

end

mutual

/-- A statement without groupings stays as it is. -/
theorem ungroupedStatement_ungroupedStatement :
    ∀ node : Node, node.ungroupedStatement.ungroupedStatement = node.ungroupedStatement
  | .expression inner | .print inner | .var _ inner | .giveBack _ inner => by
    simp only [ungroupedStatement, ungrouped_ungrouped inner]
  | .block statements | .function _ _ statements => by
    simp only [ungroupedStatement, ungroupedBody_ungroupedBody statements]
  | .ifElse condition thenBranch elseBranch => by
    simp only [ungroupedStatement, ungrouped_ungrouped condition,
      ungroupedStatement_ungroupedStatement thenBranch,
      ungroupedStatement_ungroupedStatement elseBranch]
  | .whileLoop condition body => by
    simp only [ungroupedStatement, ungrouped_ungrouped condition,
      ungroupedStatement_ungroupedStatement body]
  | .literal _ | .grouping _ | .unary _ _ | .binary _ _ _ | .logical _ _ _ | .variable _
  | .assign _ _ | .call _ _ _ | .array _ _ | .indexGet _ _ _ | .indexSet _ _ _ _ | .absent
  | .sequence _ => rfl
termination_by structural node => node

theorem ungroupedBody_ungroupedBody :
    ∀ node : Node, node.ungroupedBody.ungroupedBody = node.ungroupedBody
  | .sequence items => by
    simp only [ungroupedBody, ungroupedStatements_ungroupedStatements items]
  | .literal _ | .grouping _ | .unary _ _ | .binary _ _ _ | .logical _ _ _ | .variable _
  | .assign _ _ | .call _ _ _ | .array _ _ | .indexGet _ _ _ | .indexSet _ _ _ _ | .expression _
  | .print _ | .var _ _ | .block _ | .ifElse _ _ _ | .whileLoop _ _ | .function _ _ _
  | .giveBack _ _ | .absent => rfl
termination_by structural node => node

theorem ungroupedStatements_ungroupedStatements : ∀ nodes : List Node,
    ungroupedStatements (ungroupedStatements nodes) = ungroupedStatements nodes
  | [] => rfl
  | node :: rest => by
    simp only [ungroupedStatements, ungroupedStatement_ungroupedStatement node,
      ungroupedStatements_ungroupedStatements rest]
termination_by structural nodes => nodes

end

/-- Statements that are the same but for groupings. -/
def SameUngrouped (node node' : Node) : Prop := node.ungroupedStatement = node'.ungroupedStatement

/-! ## Roots of trees -/

/-- Has a node the form of an expression? -/
def isExpressionForm : Node → Bool
  | .literal _ | .grouping _ | .unary _ _ | .binary _ _ _ | .logical _ _ _ | .variable _
  | .assign _ _ | .call _ _ _ | .array _ _ | .indexGet _ _ _ | .indexSet _ _ _ _ => true
  | _ => false

/-- Has a node the form of a statement? -/
def isStatementForm : Node → Bool
  | .expression _ | .print _ | .var _ _ | .block _ | .ifElse _ _ _ | .whileLoop _ _
  | .function _ _ _ | .giveBack _ _ => true
  | _ => false

/-- Lists of parts that are related one for one. What is no list of parts is the same. -/
inductive SameParts (R : Node → Node → Prop) : Node → Node → Prop where
  | sequence {items items' : List Node} :
      List.Forall₂ R items items' → SameParts R (.sequence items) (.sequence items')
  | other {node : Node} : node.items? = none → SameParts R node node

theorem SameParts.trans {R R' R'' : Node → Node → Prop}
    (hR : ∀ a b c, R a b → R' b c → R'' a c) {node node' node'' : Node}
    (h : SameParts R node node') (h' : SameParts R' node' node'') : SameParts R'' node node'' := by
  cases h with
  | sequence hs =>
    cases h' with
    | sequence hs' => exact .sequence (forall₂_trans hR hs hs')
    | other hnone => cases hnone
  | other hnone =>
    cases h' with
    | sequence => cases hnone
    | other => exact .other hnone

theorem SameParts.symm {R : Node → Node → Prop} (hR : ∀ a b, R a b → R b a) {node node' : Node}
    (h : SameParts R node node') : SameParts R node' node := by
  cases h with
  | sequence hs => exact .sequence (hs.imp fun a b hab => hR a b hab).flip
  | other hnone => exact .other hnone

/-- The roots of two expressions: the same node with parts that `E` relates, or a grouping on one side
only. The second expression may have `gains` groupings in a row that the first one lacks, `here` of
them around the whole of it. -/
inductive SameExpression (gains : Nat) (E : Nat → Node → Node → Prop) : Nat → Node → Node → Prop where
  | shed {here : Nat} {inner node' : Node} : node'.isAbsent = false → E here inner node' →
      SameExpression gains E here (.grouping inner) node'
  | gained {here : Nat} {node inner' : Node} : node.isAbsent = false → E here node inner' →
      SameExpression gains E (here + 1) node (.grouping inner')
  | grouping {here : Nat} {inner inner' : Node} : E gains inner inner' →
      SameExpression gains E here (.grouping inner) (.grouping inner')
  | literal {here : Nat} {value : Json} : SameExpression gains E here (.literal value) (.literal value)
  | unary {here : Nat} {operator : Token} {right right' : Node} : E gains right right' →
      SameExpression gains E here (.unary operator right) (.unary operator right')
  | binary {here : Nat} {left left' right right' : Node} {operator : Token} :
      E gains left left' → E gains right right' →
      SameExpression gains E here (.binary left operator right) (.binary left' operator right')
  | logical {here : Nat} {left left' right right' : Node} {operator : Token} :
      E gains left left' → E gains right right' →
      SameExpression gains E here (.logical left operator right) (.logical left' operator right')
  | reference {here : Nat} {name : Token} :
      SameExpression gains E here (.variable name) (.variable name)
  | assign {here : Nat} {name : Token} {value value' : Node} : E gains value value' →
      SameExpression gains E here (.assign name value) (.assign name value')
  | call {here : Nat} {callee callee' arguments arguments' : Node} {paren : Token} :
      E gains callee callee' → SameParts (E gains) arguments arguments' →
      SameExpression gains E here (.call callee paren arguments) (.call callee' paren arguments')
  | array {here : Nat} {bracket : Token} {elements elements' : Node} :
      SameParts (E gains) elements elements' →
      SameExpression gains E here (.array bracket elements) (.array bracket elements')
  | indexGet {here : Nat} {target target' index index' : Node} {bracket : Token} :
      E gains target target' → E gains index index' →
      SameExpression gains E here (.indexGet target bracket index) (.indexGet target' bracket index')
  | indexSet {here : Nat} {target target' index index' value value' : Node} {bracket : Token} :
      E gains target target' → E gains index index' → E gains value value' →
      SameExpression gains E here (.indexSet target bracket index value)
        (.indexSet target' bracket index' value')
  | other {here : Nat} {node : Node} : node.isExpressionForm = false →
      SameExpression gains E here node node

/-- The roots of two statements: the same node with expressions that `E` relates and statements that
`S` relates. -/
inductive SameStatement (E S : Node → Node → Prop) : Node → Node → Prop where
  | expression {inner inner' : Node} : E inner inner' →
      SameStatement E S (.expression inner) (.expression inner')
  | print {inner inner' : Node} : E inner inner' → SameStatement E S (.print inner) (.print inner')
  | var {name : Token} {initializer initializer' : Node} : E initializer initializer' →
      SameStatement E S (.var name initializer) (.var name initializer')
  | block {body body' : Node} : SameParts S body body' → SameStatement E S (.block body) (.block body')
  | ifElse {condition condition' thenBranch thenBranch' elseBranch elseBranch' : Node} :
      E condition condition' → S thenBranch thenBranch' → S elseBranch elseBranch' →
      SameStatement E S (.ifElse condition thenBranch elseBranch)
        (.ifElse condition' thenBranch' elseBranch')
  | whileLoop {condition condition' body body' : Node} : E condition condition' → S body body' →
      SameStatement E S (.whileLoop condition body) (.whileLoop condition' body')
  | function {name : Token} {params : List Token} {body body' : Node} : SameParts S body body' →
      SameStatement E S (.function name params body) (.function name params body')
  | giveBack {keyword : Token} {value value' : Node} : E value value' →
      SameStatement E S (.giveBack keyword value) (.giveBack keyword value')
  | other {node : Node} : node.isStatementForm = false → SameStatement E S node node

end Node

open Node (SameParts SameExpression SameStatement)

/-- Relations between expressions and between statements that are the same but for groupings. -/
structure Regrouping (gains : Nat) (E : Nat → Node → Node → Prop) (S : Node → Node → Prop) :
    Prop where
  expression : ∀ {here node node'}, E here node node' → SameExpression gains E here node node'
  statement : ∀ {node node'}, S node node' → SameStatement (E gains) S node node'

namespace Regrouping

variable {gains : Nat} {E : Nat → Node → Node → Prop} {S : Node → Node → Prop} {here : Nat}
  {node node' : Node}

/-- Parts are missing on both sides or on none. -/
theorem expression_isAbsent (h : Regrouping gains E S) (hn : E here node node') :
    node.isAbsent = node'.isAbsent := by
  cases h.expression hn with
  | shed ha => exact ha.symm
  | gained ha => exact ha
  | _ => rfl

theorem statement_isAbsent (h : Regrouping gains E S) (hn : S node node') :
    node.isAbsent = node'.isAbsent := by
  cases h.statement hn <;> rfl

/-! ## Three regroupings -/

theorem sameParts_same {R : Node → Node → Prop} (hR : ∀ item, R item item) (node : Node) :
    SameParts R node node := by
  cases node with
  | sequence items => exact .sequence (List.forall₂_same.mpr fun item _ => hR item)
  | _ => exact .other rfl

/-- Equal trees. -/
theorem equal : Regrouping 0 (fun _ => Eq) Eq where
  expression := by
    intro here node node' h
    obtain rfl := h
    cases node with
    | grouping => exact .grouping rfl
    | literal => exact .literal
    | unary => exact .unary rfl
    | binary => exact .binary rfl rfl
    | logical => exact .logical rfl rfl
    | «variable» => exact .reference
    | assign => exact .assign rfl
    | call => exact .call rfl (sameParts_same (fun _ => rfl) _)
    | array => exact .array (sameParts_same (fun _ => rfl) _)
    | indexGet => exact .indexGet rfl rfl
    | indexSet => exact .indexSet rfl rfl rfl
    | _ => exact .other rfl
  statement := by
    intro node node' h
    obtain rfl := h
    cases node with
    | expression => exact .expression rfl
    | print => exact .print rfl
    | var => exact .var rfl
    | block => exact .block (sameParts_same (fun _ => rfl) _)
    | ifElse => exact .ifElse rfl rfl rfl
    | whileLoop => exact .whileLoop rfl rfl
    | function => exact .function (sameParts_same (fun _ => rfl) _)
    | giveBack => exact .giveBack rfl
    | _ => exact .other rfl

theorem sameParts_shedding (node : Node) :
    SameParts (fun node node' => node.ungrouped = node') node node.ungroupedParts := by
  cases node with
  | sequence items =>
    rw [Node.ungroupedParts, Node.ungroupedAll_eq]
    exact .sequence (List.forall₂_map_right_iff.mpr (List.forall₂_same.mpr fun _ _ => rfl))
  | _ => exact .other rfl

theorem sameBody_shedding (node : Node) :
    SameParts (fun node node' => node.ungroupedStatement = node') node node.ungroupedBody := by
  cases node with
  | sequence items =>
    rw [Node.ungroupedBody, Node.ungroupedStatements_eq]
    exact .sequence (List.forall₂_map_right_iff.mpr (List.forall₂_same.mpr fun _ _ => rfl))
  | _ => exact .other rfl

/-- A tree and the same tree without its groupings. -/
theorem shedding : Regrouping 0 (fun _ node node' => node.ungrouped = node')
    (fun node node' => node.ungroupedStatement = node') where
  expression := by
    intro here node node' h
    obtain rfl := h
    cases node with
    | grouping inner =>
      cases ha : inner.isAbsent with
      | true =>
        obtain rfl := Node.eq_absent ha
        exact .grouping rfl
      | false =>
        rw [Node.ungrouped_grouping ha]
        exact .shed (by rw [Node.ungrouped_isAbsent, ha]) rfl
    | literal => exact .literal
    | unary => exact .unary rfl
    | binary => exact .binary rfl rfl
    | logical => exact .logical rfl rfl
    | «variable» => exact .reference
    | assign => exact .assign rfl
    | call => exact .call rfl (sameParts_shedding _)
    | array => exact .array (sameParts_shedding _)
    | indexGet => exact .indexGet rfl rfl
    | indexSet => exact .indexSet rfl rfl rfl
    | _ => exact .other rfl
  statement := by
    intro node node' h
    obtain rfl := h
    cases node with
    | expression => exact .expression rfl
    | print => exact .print rfl
    | var => exact .var rfl
    | block => exact .block (sameBody_shedding _)
    | ifElse => exact .ifElse rfl rfl rfl
    | whileLoop => exact .whileLoop rfl rfl
    | function => exact .function (sameBody_shedding _)
    | giveBack => exact .giveBack rfl
    | _ => exact .other rfl

theorem depth_le_depthOfAll {items : List Node} {item : Node} (h : item ∈ items) :
    item.depth 1 0 ≤ Node.depthOfAll 1 0 items := by
  induction h with
  | head => exact Nat.le_max_left _ _
  | tail _ _ ih => exact Nat.le_trans ih (Nat.le_max_right _ _)

theorem sameParts_gaining {gains : Nat} (node : Node) (h : node.depth 1 0 ≤ gains) :
    SameParts (fun node node' => node'.ungrouped = node ∧ node'.depth 1 0 ≤ gains ∧ gains ≤ gains)
      node.ungroupedParts node := by
  cases node with
  | sequence items =>
    rw [Node.depth] at h
    rw [Node.ungroupedParts, Node.ungroupedAll_eq]
    refine .sequence (List.forall₂_map_left_iff.mpr (List.forall₂_same.mpr fun item hi => ?_))
    exact ⟨rfl, Nat.le_trans (depth_le_depthOfAll hi) h, Nat.le_refl _⟩
  | _ => exact .other rfl

theorem sameBody_gaining {gains : Nat} (node : Node) (h : node.depth 1 0 ≤ gains) :
    SameParts (fun node node' => node'.ungroupedStatement = node ∧ node'.depth 1 0 ≤ gains)
      node.ungroupedBody node := by
  cases node with
  | sequence items =>
    rw [Node.depth] at h
    rw [Node.ungroupedBody, Node.ungroupedStatements_eq]
    refine .sequence (List.forall₂_map_left_iff.mpr (List.forall₂_same.mpr fun item hi => ?_))
    exact ⟨rfl, Nat.le_trans (depth_le_depthOfAll hi) h⟩
  | _ => exact .other rfl

/-- The same trees the other way round: what the first tree lacks, the second one may have as often in
a row as it has nodes below each other. -/
theorem gaining (gains : Nat) : Regrouping gains
    (fun here node node' => node'.ungrouped = node ∧ node'.depth 1 0 ≤ here ∧ here ≤ gains)
    (fun node node' => node'.ungroupedStatement = node ∧ node'.depth 1 0 ≤ gains) where
  expression := by
    intro here node node' h
    obtain ⟨rfl, hdepth, hhere⟩ := h
    cases node' with
    | grouping inner =>
      rw [Node.depth] at hdepth
      cases ha : inner.isAbsent with
      | true =>
        obtain rfl := Node.eq_absent ha
        exact .grouping ⟨rfl, by omega, by omega⟩
      | false =>
        obtain ⟨here, rfl⟩ : ∃ n, here = n + 1 := ⟨here - 1, by omega⟩
        rw [Node.ungrouped_grouping ha]
        exact .gained (by rw [Node.ungrouped_isAbsent, ha]) ⟨rfl, by omega, by omega⟩
    | literal => exact .literal
    | unary =>
      rw [Node.depth] at hdepth
      exact .unary ⟨rfl, by omega, by omega⟩
    | binary =>
      rw [Node.depth] at hdepth
      exact .binary ⟨rfl, by omega, by omega⟩ ⟨rfl, by omega, by omega⟩
    | logical =>
      rw [Node.depth] at hdepth
      exact .logical ⟨rfl, by omega, by omega⟩ ⟨rfl, by omega, by omega⟩
    | «variable» => exact .reference
    | assign =>
      rw [Node.depth] at hdepth
      exact .assign ⟨rfl, by omega, by omega⟩
    | call =>
      rw [Node.depth] at hdepth
      exact .call ⟨rfl, by omega, by omega⟩ (sameParts_gaining _ (by omega))
    | array =>
      rw [Node.depth] at hdepth
      exact .array (sameParts_gaining _ (by omega))
    | indexGet =>
      rw [Node.depth] at hdepth
      exact .indexGet ⟨rfl, by omega, by omega⟩ ⟨rfl, by omega, by omega⟩
    | indexSet =>
      rw [Node.depth] at hdepth
      exact .indexSet ⟨rfl, by omega, by omega⟩ ⟨rfl, by omega, by omega⟩ ⟨rfl, by omega, by omega⟩
    | _ => exact .other rfl
  statement := by
    intro node node' h
    obtain ⟨rfl, hdepth⟩ := h
    cases node' with
    | expression =>
      rw [Node.depth] at hdepth
      exact .expression ⟨rfl, by omega, by omega⟩
    | print =>
      rw [Node.depth] at hdepth
      exact .print ⟨rfl, by omega, by omega⟩
    | var =>
      rw [Node.depth] at hdepth
      exact .var ⟨rfl, by omega, by omega⟩
    | block =>
      rw [Node.depth] at hdepth
      exact .block (sameBody_gaining _ (by omega))
    | ifElse =>
      rw [Node.depth] at hdepth
      exact .ifElse ⟨rfl, by omega, by omega⟩ ⟨rfl, by omega⟩ ⟨rfl, by omega⟩
    | whileLoop =>
      rw [Node.depth] at hdepth
      exact .whileLoop ⟨rfl, by omega, by omega⟩ ⟨rfl, by omega⟩
    | function =>
      rw [Node.depth] at hdepth
      exact .function (sameBody_gaining _ (by omega))
    | giveBack =>
      rw [Node.depth] at hdepth
      exact .giveBack ⟨rfl, by omega, by omega⟩
    | _ => exact .other rfl

end Regrouping

end GameScript
