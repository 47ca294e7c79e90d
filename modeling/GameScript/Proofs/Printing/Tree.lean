import GameScript.Proofs.Printing.SExpr
import GameScript.Proofs.Safety.Tree
import GameScript.Tree.Printer

/-! # The printed form of a tree

What is printed of a tree is a form: a head and the forms of the parts. Where a part may be missing,
the number of parts or the head tells whether it is there. -/

namespace GameScript

theorem IsExpression.ne_absent {W : Token → Prop} {node : Node}
    (h : IsExpression W node) : node ≠ .absent := by
  rintro rfl
  cases h

theorem IsStatement.ne_absent {W : Token → Prop} {node : Node} (h : IsStatement W node) :
    node ≠ .absent := by
  rintro rfl
  cases h

namespace Node

/-! ## Trees as forms -/

mutual

/-- The form of a node. -/
def form : Node → SExpr
  | .literal value => .atom (literalText value)
  | .grouping inner => .list [.atom "group", inner.form]
  | .unary operator right => .list [.atom operator.text, right.form]
  | .binary left operator right | .logical left operator right =>
    .list [.atom operator.text, left.form, right.form]
  | .variable name => .atom name.text
  | .assign name value => .list [.atom "=", .atom name.text, value.form]
  | .call callee _ arguments =>
    match arguments with
    | .sequence items => .list (.atom "call" :: callee.form :: formAll items)
    | _ => .list []
  | .array _ elements =>
    match elements with
    | .sequence items => .list (.atom "array" :: formAll items)
    | _ => .list []
  | .indexGet target _ index => .list [.atom "index", target.form, index.form]
  | .indexSet target _ index value => .list [.atom "index=", target.form, index.form, value.form]
  | .expression inner => .list [.atom ";", inner.form]
  | .print inner => .list [.atom "print", inner.form]
  | .var name initializer =>
    match initializer with
    | .absent => .list [.atom "var", .atom name.text]
    | value => .list [.atom "var", .atom name.text, value.form]
  | .block statements =>
    match statements with
    | .sequence items => .list (.atom "block" :: formAll items)
    | _ => .list []
  | .ifElse condition thenBranch elseBranch =>
    match elseBranch with
    | .absent => .list [.atom "if", condition.form, thenBranch.form]
    | branch => .list [.atom "if-else", condition.form, thenBranch.form, branch.form]
  | .whileLoop condition body => .list [.atom "while", condition.form, body.form]
  | .function name params body =>
    match body with
    | .sequence items => .list (.atom "fun" :: .atom name.text ::
        .list (params.map fun param => .atom param.text) :: formAll items)
    | _ => .list []
  | .giveBack _ value =>
    match value with
    | .absent => .list [.atom "return"]
    | value => .list [.atom "return", value.form]
  | .absent | .sequence _ => .list []
termination_by structural node => node

/-- The forms of nodes. -/
def formAll : List Node → List SExpr
  | [] => []
  | node :: rest => node.form :: formAll rest
termination_by structural nodes => nodes

end

theorem formAll_eq (nodes : List Node) : formAll nodes = nodes.map form := by
  induction nodes with
  | nil => rfl
  | cons node rest ih => rw [formAll, ih, List.map_cons]

/-- What is printed of a node is the text of its form. -/
def Prints (node : Node) : Prop := node.render = .ok (.string node.form.text)

theorem mapM_pieceText (texts : List String) :
    (texts.map Json.string).mapM pieceText = .ok texts := by
  induction texts with
  | nil => rfl
  | cons text rest ih =>
    rw [List.map_cons, List.mapM_cons, ih]
    rfl

theorem parenthesized_form (head : String) (parts : List SExpr) :
    parenthesized (.string head) (parts.map fun part => .string part.text) =
      .ok (.string (SExpr.list (.atom head :: parts)).text) := by
  have hpieces : Json.string head :: parts.map (fun part => .string part.text) =
      (head :: parts.map SExpr.text).map Json.string := by simp
  rw [parenthesized, hpieces, mapM_pieceText, SExpr.text_list, List.map_cons, SExpr.text_atom]
  rfl

theorem renderAll_form {nodes : List Node} (h : ∀ node ∈ nodes, node.Prints) :
    renderAll nodes = .ok ((formAll nodes).map fun part => .string part.text) := by
  induction nodes with
  | nil => rfl
  | cons node rest ih =>
    have hnode : node.render = _ := h node (by simp)
    rw [renderAll, hnode, ih fun node hn => h node (by simp [hn])]
    rfl

/-! ## Optional parts -/

section Optional

variable {part : Node} (h : part ≠ .absent)

include h

theorem var_some (name : Token) :
    render (.var name part) = (do parenthesized (.string "var") [← namePart name, ← part.render]) ∧
      form (.var name part) = .list [.atom "var", .atom name.text, part.form] := by
  cases part <;> first | exact ⟨rfl, rfl⟩ | exact absurd rfl h

theorem ifElse_some (condition thenBranch : Node) :
    render (.ifElse condition thenBranch part) =
        (do
          parenthesized (.string "if-else")
            [← condition.render, ← thenBranch.render, ← part.render]) ∧
      form (.ifElse condition thenBranch part) =
        .list [.atom "if-else", condition.form, thenBranch.form, part.form] := by
  cases part <;> first | exact ⟨rfl, rfl⟩ | exact absurd rfl h

theorem giveBack_some (keyword : Token) :
    render (.giveBack keyword part) = (do parenthesized (.string "return") [← part.render]) ∧
      form (.giveBack keyword part) = .list [.atom "return", part.form] := by
  cases part <;> first | exact ⟨rfl, rfl⟩ | exact absurd rfl h

end Optional

/-! ## What is printed -/

section Prints

variable {W : Token → Prop} (hW : ∀ token, W token → token.Written)

include hW

theorem lexeme_text {token : Token} (h : W token) : token.lexeme = .string token.text := by
  obtain ⟨text, htext⟩ := (hW token h).lexeme
  rw [Token.text, htext]
  rfl

theorem signature_form {params : List Token} (h : ∀ param ∈ params, W param) :
    signature params =
      .ok (.string (SExpr.list (params.map fun param => .atom param.text)).text) := by
  have hnames : params.mapM (fun param => pieceText param.lexeme) =
      .ok (params.map Token.text) := by
    induction params with
    | nil => rfl
    | cons param rest ih =>
      rw [List.mapM_cons, ih fun param hp => h param (by simp [hp]),
        lexeme_text hW (h param (by simp))]
      rfl
  rw [signature, hnames, SExpr.text_list, List.map_map]
  have htexts : params.map (SExpr.text ∘ fun param => .atom param.text) = params.map Token.text :=
    List.map_congr_left fun param _ => SExpr.text_atom _
  rw [htexts]
  rfl

theorem namePart_form {name : Token} (h : W name) :
    namePart name = .ok (.string (SExpr.atom name.text).text) := by
  rw [namePart, lexeme_text hW h, SExpr.text_atom]
  rfl

theorem prints_expression {node : Node} (h : IsExpression W node) : node.Prints := by
  induction h with
  | literal => exact congrArg (fun text => Except.ok (Json.string text)) (SExpr.text_atom _).symm
  | @grouping inner _ ih =>
    rw [Prints, render, ih]
    exact parenthesized_form "group" [inner.form]
  | @unary operator right ho _ _ ih =>
    rw [Prints, render, ih, lexeme_text hW ho]
    exact parenthesized_form operator.text [right.form]
  | @binary left right operator _ ho _ _ ihl ihr =>
    rw [Prints, render, ihl, ihr, lexeme_text hW ho]
    exact parenthesized_form operator.text [left.form, right.form]
  | @logical left right operator _ ho _ _ ihl ihr =>
    rw [Prints, render, ihl, ihr, lexeme_text hW ho]
    exact parenthesized_form operator.text [left.form, right.form]
  | reference hn =>
    rw [Prints, render, lexeme_text hW hn, form, SExpr.text_atom]
    rfl
  | @assign name value hn _ ih =>
    rw [Prints, render, ih, namePart_form hW hn]
    exact parenthesized_form "=" [.atom name.text, value.form]
  | @call callee paren arguments _ _ _ _ ihc iha =>
    rw [Prints, render, ihc, renderAll_form iha]
    exact parenthesized_form "call" (callee.form :: formAll arguments)
  | @array bracket elements _ _ ih =>
    rw [Prints, render, renderAll_form ih]
    exact parenthesized_form "array" (formAll elements)
  | @indexGet target index bracket _ _ _ iht ihi =>
    rw [Prints, render, iht, ihi]
    exact parenthesized_form "index" [target.form, index.form]
  | @indexSet target index value bracket _ _ _ _ iht ihi ihv =>
    rw [Prints, render, iht, ihi, ihv]
    exact parenthesized_form "index=" [target.form, index.form, value.form]

theorem prints_statement {node : Node} (h : IsStatement W node) : node.Prints := by
  induction h with
  | @expression inner h =>
    rw [Prints, render, prints_expression hW h]
    exact parenthesized_form ";" [inner.form]
  | @print inner h =>
    rw [Prints, render, prints_expression hW h]
    exact parenthesized_form "print" [inner.form]
  | @var name value hn hv =>
    rcases hv with rfl | hv
    · rw [Prints, render, namePart_form hW hn]
      exact parenthesized_form "var" [.atom name.text]
    · rw [Prints, (var_some hv.ne_absent name).1, (var_some hv.ne_absent name).2,
        namePart_form hW hn, prints_expression hW hv]
      exact parenthesized_form "var" [.atom name.text, value.form]
  | @block body _ ih =>
    rw [Prints, render, renderAll_form ih]
    exact parenthesized_form "block" (formAll body)
  | @ifThen condition thenBranch hc _ iht =>
    rw [Prints, render, prints_expression hW hc, iht]
    exact parenthesized_form "if" [condition.form, thenBranch.form]
  | @ifElse condition thenBranch elseBranch hc _ he iht ihe =>
    rw [Prints, (ifElse_some he.ne_absent condition thenBranch).1,
      (ifElse_some he.ne_absent condition thenBranch).2, prints_expression hW hc, iht, ihe]
    exact parenthesized_form "if-else" [condition.form, thenBranch.form, elseBranch.form]
  | @whileLoop condition body hc _ ih =>
    rw [Prints, render, prints_expression hW hc, ih]
    exact parenthesized_form "while" [condition.form, body.form]
  | @function name params body hn hp _ ih =>
    rw [Prints, render, signature_form hW hp, namePart_form hW hn]
    dsimp only
    rw [renderAll_form ih]
    exact parenthesized_form "fun" (.atom name.text ::
      .list (params.map fun param => .atom param.text) :: formAll body)
  | @giveBack keyword value _ hv =>
    rcases hv with rfl | hv
    · rfl
    · rw [Prints, (giveBack_some hv.ne_absent keyword).1, (giveBack_some hv.ne_absent keyword).2,
        prints_expression hW hv]
      exact parenthesized_form "return" [value.form]

end Prints

end Node

end GameScript
