import Mathlib.Data.List.Forall2
import GameScript.Diagnostic
import GameScript.Tree.Basic

/-! # Trees that differ in their tokens only

Two programs may have the same shape while their tokens differ, as when one stands on other lines of
its source or is spelled with other words. Relations between tokens carry over to trees node by node,
and to what is reported at them. Names have a relation of their own. -/

namespace GameScript

/-- The same tree up to a relation between names and one between all other tokens. -/
inductive Node.Matches (N T : Token → Token → Prop) : Node → Node → Prop where
  | literal {value : Json} : Node.Matches N T (.literal value) (.literal value)
  | grouping {inner inner' : Node} :
      Node.Matches N T inner inner' → Node.Matches N T (.grouping inner) (.grouping inner')
  | unary {operator operator' : Token} {right right' : Node} :
      T operator operator' → Node.Matches N T right right' →
      Node.Matches N T (.unary operator right) (.unary operator' right')
  | binary {left left' right right' : Node} {operator operator' : Token} :
      Node.Matches N T left left' → T operator operator' → Node.Matches N T right right' →
      Node.Matches N T (.binary left operator right) (.binary left' operator' right')
  | logical {left left' right right' : Node} {operator operator' : Token} :
      Node.Matches N T left left' → T operator operator' → Node.Matches N T right right' →
      Node.Matches N T (.logical left operator right) (.logical left' operator' right')
  | reference {name name' : Token} :
      N name name' → Node.Matches N T (.variable name) (.variable name')
  | assign {name name' : Token} {value value' : Node} :
      N name name' → Node.Matches N T value value' →
      Node.Matches N T (.assign name value) (.assign name' value')
  | call {callee callee' arguments arguments' : Node} {paren paren' : Token} :
      Node.Matches N T callee callee' → T paren paren' → Node.Matches N T arguments arguments' →
      Node.Matches N T (.call callee paren arguments) (.call callee' paren' arguments')
  | array {bracket bracket' : Token} {elements elements' : Node} :
      T bracket bracket' → Node.Matches N T elements elements' →
      Node.Matches N T (.array bracket elements) (.array bracket' elements')
  | indexGet {target target' index index' : Node} {bracket bracket' : Token} :
      Node.Matches N T target target' → T bracket bracket' → Node.Matches N T index index' →
      Node.Matches N T (.indexGet target bracket index) (.indexGet target' bracket' index')
  | indexSet {target target' index index' value value' : Node} {bracket bracket' : Token} :
      Node.Matches N T target target' → T bracket bracket' → Node.Matches N T index index' →
      Node.Matches N T value value' →
      Node.Matches N T (.indexSet target bracket index value)
        (.indexSet target' bracket' index' value')
  | expression {inner inner' : Node} :
      Node.Matches N T inner inner' → Node.Matches N T (.expression inner) (.expression inner')
  | print {inner inner' : Node} :
      Node.Matches N T inner inner' → Node.Matches N T (.print inner) (.print inner')
  | var {name name' : Token} {initializer initializer' : Node} :
      N name name' → Node.Matches N T initializer initializer' →
      Node.Matches N T (.var name initializer) (.var name' initializer')
  | block {body body' : Node} :
      Node.Matches N T body body' → Node.Matches N T (.block body) (.block body')
  | ifElse {condition condition' thenBranch thenBranch' elseBranch elseBranch' : Node} :
      Node.Matches N T condition condition' → Node.Matches N T thenBranch thenBranch' →
      Node.Matches N T elseBranch elseBranch' →
      Node.Matches N T (.ifElse condition thenBranch elseBranch)
        (.ifElse condition' thenBranch' elseBranch')
  | whileLoop {condition condition' body body' : Node} :
      Node.Matches N T condition condition' → Node.Matches N T body body' →
      Node.Matches N T (.whileLoop condition body) (.whileLoop condition' body')
  | function {name name' : Token} {params params' : List Token} {body body' : Node} :
      N name name' → List.Forall₂ N params params' → Node.Matches N T body body' →
      Node.Matches N T (.function name params body) (.function name' params' body')
  | giveBack {keyword keyword' : Token} {value value' : Node} :
      T keyword keyword' → Node.Matches N T value value' →
      Node.Matches N T (.giveBack keyword value) (.giveBack keyword' value')
  | absent : Node.Matches N T .absent .absent
  | sequence {items items' : List Node} :
      List.Forall₂ (Node.Matches N T) items items' →
      Node.Matches N T (.sequence items) (.sequence items')

/-- Lists of the same trees up to relations between tokens. -/
abbrev MatchesAll (N T : Token → Token → Prop) : List Node → List Node → Prop :=
  List.Forall₂ (Node.Matches N T)

mutual

/-- Trees whose tokens are equal are equal. -/
theorem Node.Matches.eq : ∀ {node node' : Node}, Node.Matches Eq Eq node node' → node = node'
  | _, _, .literal => rfl
  | _, _, .grouping h => by rw [h.eq]
  | _, _, .unary ho h => by rw [ho, h.eq]
  | _, _, .binary hl ho hr => by rw [hl.eq, ho, hr.eq]
  | _, _, .logical hl ho hr => by rw [hl.eq, ho, hr.eq]
  | _, _, .reference hn => by rw [hn]
  | _, _, .assign hn h => by rw [hn, h.eq]
  | _, _, .call hc hp ha => by rw [hc.eq, hp, ha.eq]
  | _, _, .array hb h => by rw [hb, h.eq]
  | _, _, .indexGet ht hb hi => by rw [ht.eq, hb, hi.eq]
  | _, _, .indexSet ht hb hi hv => by rw [ht.eq, hb, hi.eq, hv.eq]
  | _, _, .expression h => by rw [h.eq]
  | _, _, .print h => by rw [h.eq]
  | _, _, .var hn h => by rw [hn, h.eq]
  | _, _, .block h => by rw [h.eq]
  | _, _, .ifElse hc ht he => by rw [hc.eq, ht.eq, he.eq]
  | _, _, .whileLoop hc hb => by rw [hc.eq, hb.eq]
  | _, _, .function hn hp hb => by
    rw [List.forall₂_eq_eq_eq] at hp
    rw [hn, hp, hb.eq]
  | _, _, .giveBack hk h => by rw [hk, h.eq]
  | _, _, .absent => rfl
  | _, _, .sequence h => by rw [MatchesAll.eq h]

theorem MatchesAll.eq : ∀ {nodes nodes' : List Node}, MatchesAll Eq Eq nodes nodes' → nodes = nodes'
  | _, _, .nil => rfl
  | _, _, .cons h hs => by rw [h.eq, MatchesAll.eq hs]

end

mutual

/-- A tree matches itself, if every token does. -/
theorem Node.Matches.same {N T : Token → Token → Prop} (hN : ∀ token, N token token)
    (hT : ∀ token, T token token) : ∀ node : Node, Node.Matches N T node node
  | .literal _ => .literal
  | .grouping inner => .grouping (.same hN hT inner)
  | .unary operator right => .unary (hT operator) (.same hN hT right)
  | .binary left operator right => .binary (.same hN hT left) (hT operator) (.same hN hT right)
  | .logical left operator right => .logical (.same hN hT left) (hT operator) (.same hN hT right)
  | .variable name => .reference (hN name)
  | .assign name value => .assign (hN name) (.same hN hT value)
  | .call callee paren arguments => .call (.same hN hT callee) (hT paren) (.same hN hT arguments)
  | .array bracket elements => .array (hT bracket) (.same hN hT elements)
  | .indexGet target bracket index => .indexGet (.same hN hT target) (hT bracket) (.same hN hT index)
  | .indexSet target bracket index value =>
    .indexSet (.same hN hT target) (hT bracket) (.same hN hT index) (.same hN hT value)
  | .expression inner => .expression (.same hN hT inner)
  | .print inner => .print (.same hN hT inner)
  | .var name initializer => .var (hN name) (.same hN hT initializer)
  | .block body => .block (.same hN hT body)
  | .ifElse condition thenBranch elseBranch =>
    .ifElse (.same hN hT condition) (.same hN hT thenBranch) (.same hN hT elseBranch)
  | .whileLoop condition body => .whileLoop (.same hN hT condition) (.same hN hT body)
  | .function name _ body =>
    .function (hN name) (List.forall₂_same.mpr fun param _ => hN param) (.same hN hT body)
  | .giveBack keyword value => .giveBack (hT keyword) (.same hN hT value)
  | .absent => .absent
  | .sequence items => .sequence (MatchesAll.same hN hT items)

theorem MatchesAll.same {N T : Token → Token → Prop} (hN : ∀ token, N token token)
    (hT : ∀ token, T token token) : ∀ nodes : List Node, MatchesAll N T nodes nodes
  | [] => .nil
  | node :: nodes => .cons (.same hN hT node) (MatchesAll.same hN hT nodes)

end

/-- The same problem at tokens that a relation holds of. -/
def Diagnostic.Matches (T : Token → Token → Prop) (d d' : Diagnostic) : Prop :=
  ∃ token token' message, T token token' ∧ d = .atToken token message ∧ d' = .atToken token' message

end GameScript
