import GameScript.Proofs.Printing.Tree
import GameScript.Proofs.Printing.Word

/-! # Reading a printed tree

A tree can be read from its form, as far as it is shown: what is lost are the lines of tokens, and
the tokens that are not printed. So trees with the same form are the same in all else. -/

namespace GameScript

/-- What stands for a token that is not printed. -/
def Token.omitted : Token := ⟨.eof, .null, .null, .null⟩

namespace Node

/-! ## What a form shows of a tree -/

mutual

/-- A tree without the lines of its tokens and without the tokens that are not printed: those of
calls, arrays and indexings, and the word with which a `return` is spelled. -/
def bare : Node → Node
  | .literal value => .literal value
  | .grouping inner => .grouping inner.bare
  | .unary operator right => .unary operator.bare right.bare
  | .binary left operator right => .binary left.bare operator.bare right.bare
  | .logical left operator right => .logical left.bare operator.bare right.bare
  | .variable name => .variable name.bare
  | .assign name value => .assign name.bare value.bare
  | .call callee _ arguments => .call callee.bare .omitted arguments.bare
  | .array _ elements => .array .omitted elements.bare
  | .indexGet target _ index => .indexGet target.bare .omitted index.bare
  | .indexSet target _ index value => .indexSet target.bare .omitted index.bare value.bare
  | .expression inner => .expression inner.bare
  | .print inner => .print inner.bare
  | .var name initializer => .var name.bare initializer.bare
  | .block statements => .block statements.bare
  | .ifElse condition thenBranch elseBranch =>
    .ifElse condition.bare thenBranch.bare elseBranch.bare
  | .whileLoop condition body => .whileLoop condition.bare body.bare
  | .function name params body => .function name.bare (params.map Token.bare) body.bare
  | .giveBack _ value => .giveBack .omitted value.bare
  | .absent => .absent
  | .sequence items => .sequence (bareAll items)
termination_by structural node => node

def bareAll : List Node → List Node
  | [] => []
  | node :: rest => node.bare :: bareAll rest
termination_by structural nodes => nodes

end

/-- What a tree is made of besides operators: a name where it stands, or a constant. -/
inductive Leaf where
  | name (token : Token)
  | constant (value : Json)

mutual

/-- The names and the constants of a tree, in order. -/
def leaves : Node → List Leaf
  | .literal value => [.constant value]
  | .grouping inner | .expression inner | .print inner | .unary _ inner | .giveBack _ inner =>
    inner.leaves
  | .binary left _ right | .logical left _ right | .indexGet left _ right
  | .call left _ right | .whileLoop left right => left.leaves ++ right.leaves
  | .variable name => [.name name]
  | .assign name value | .var name value => .name name :: value.leaves
  | .array _ elements => elements.leaves
  | .indexSet target _ index value => target.leaves ++ (index.leaves ++ value.leaves)
  | .block statements => statements.leaves
  | .ifElse condition thenBranch elseBranch =>
    condition.leaves ++ (thenBranch.leaves ++ elseBranch.leaves)
  | .function name params body => .name name :: (params.map Leaf.name ++ body.leaves)
  | .absent => []
  | .sequence items => leavesAll items
termination_by structural node => node

def leavesAll : List Node → List Leaf
  | [] => []
  | node :: rest => node.leaves ++ leavesAll rest
termination_by structural nodes => nodes

end

theorem leavesAll_eq (nodes : List Node) : leavesAll nodes = nodes.flatMap leaves := by
  induction nodes with
  | nil => rfl
  | cons node rest ih => rw [leavesAll, ih, List.flatMap_cons]

theorem bareAll_eq (nodes : List Node) : bareAll nodes = nodes.map bare := by
  induction nodes with
  | nil => rfl
  | cons node rest ih => rw [bareAll, ih, List.map_cons]

/-- A leaf that can be told from its text. -/
def Leaf.Shown : Leaf → Prop
  | .name token => token.Scanned ∧ token.kind = .identifier
  | .constant value => IsShown value

/-! ## Reading a form -/

open Classical in
/-- The constant or the name that an atom shows. -/
noncomputable def ofAtom (text : String) : Node :=
  if h : ∃ value, IsShown value ∧ literalText value = text then .literal h.choose
  else .variable (.spelled text)

/-- The token that an atom shows. -/
def formToken : SExpr → Token
  | .atom text => .spelled text
  | .list _ => .omitted

/-- The operation of an operator. -/
def operation (operator : Token) : List Node → Node
  | [right] => .unary operator right
  | [left, right] =>
    if operator.kind = .or ∨ operator.kind = .and then .logical left operator right
    else .binary left operator right
  | _ => .absent

/-- The node of a head and parts other than a function. The forms of the parts tell the names. -/
def ofHead (head : String) (forms : List SExpr) (parts : List Node) : Node :=
  match head, forms, parts with
  | "group", _, [inner] => .grouping inner
  | "=", [name, _], [_, value] => .assign (formToken name) value
  | "call", _, callee :: arguments => .call callee .omitted (.sequence arguments)
  | "array", _, elements => .array .omitted (.sequence elements)
  | "index", _, [target, index] => .indexGet target .omitted index
  | "index=", _, [target, index, value] => .indexSet target .omitted index value
  | ";", _, [inner] => .expression inner
  | "print", _, [inner] => .print inner
  | "var", [name], _ => .var (formToken name) .absent
  | "var", [name, _], [_, value] => .var (formToken name) value
  | "block", _, statements => .block (.sequence statements)
  | "if", _, [condition, thenBranch] => .ifElse condition thenBranch .absent
  | "if-else", _, [condition, thenBranch, elseBranch] => .ifElse condition thenBranch elseBranch
  | "while", _, [condition, body] => .whileLoop condition body
  | "fun", name :: .list params :: _, _ :: _ :: body =>
    .function (formToken name) (params.map formToken) (.sequence body)
  | "return", _, [] => .giveBack .omitted .absent
  | "return", _, [value] => .giveBack .omitted value
  | _, _, _ => .absent

mutual

/-- The tree that a form shows. -/
noncomputable def ofForm : SExpr → Node
  | .atom text => ofAtom text
  | .list (.atom head :: parts) =>
    if head ∈ heads then ofHead head parts (ofForms parts)
    else operation (.spelled head) (ofForms parts)
  | .list _ => .absent
termination_by structural form => form

noncomputable def ofForms : List SExpr → List Node
  | [] => []
  | form :: rest => ofForm form :: ofForms rest
termination_by structural forms => forms

end

theorem ofForms_eq (forms : List SExpr) : ofForms forms = forms.map ofForm := by
  induction forms with
  | nil => rfl
  | cons form rest ih => rw [ofForms, ih, List.map_cons]

/-! ## Trees of a source -/

/-- A tree that is read from its form again, whose text can be taken apart. -/
structure Reads (node : Node) : Prop where
  clean : node.form.Clean
  back : ofForm node.form = node.bare

theorem ofAtom_literal {value : Json} (h : IsShown value) :
    ofAtom (literalText value) = .literal value := by
  have hex : ∃ value', IsShown value' ∧ literalText value' = literalText value := ⟨value, h, rfl⟩
  rw [ofAtom, dif_pos hex, literalText_inj hex.choose_spec.1 h hex.choose_spec.2]

theorem ofAtom_name {name : Token} (h : (Leaf.name name).Shown) :
    ofAtom name.text = .variable name.bare := by
  have hnone : ¬ ∃ value, IsShown value ∧ literalText value = name.text :=
    fun ⟨_, hv, he⟩ => name_ne_literalText h.1 h.2 hv he
  rw [ofAtom, dif_neg hnone, h.1.spelled_text (by rw [h.2]; decide)]

theorem ofForms_map {nodes : List Node} (h : ∀ node ∈ nodes, node.Reads) :
    ofForms (nodes.map form) = nodes.map bare := by
  rw [ofForms_eq, List.map_map]
  exact List.map_congr_left fun node hn => (h node hn).back

theorem clean_map {nodes : List Node} (h : ∀ node ∈ nodes, node.Reads) :
    ∀ part ∈ nodes.map form, part.Clean :=
  List.forall_mem_map.mpr fun node hn => (h node hn).clean

theorem clean_head {head : String} (hhead : head ∈ heads) {forms : List SExpr}
    (h : ∀ form ∈ forms, form.Clean) : (SExpr.list (.atom head :: forms)).Clean :=
  .list (List.forall_mem_cons.mpr ⟨.atom (isAtom_head hhead), h⟩)

/-- A node with a head is read if its parts are. -/
theorem Reads.ofHead {node : Node} (head : String) (parts : List Node) (hhead : head ∈ heads)
    (hform : node.form = .list (.atom head :: parts.map form)) (h : ∀ part ∈ parts, part.Reads)
    (hback : Node.ofHead head (parts.map form) (parts.map bare) = node.bare) : node.Reads := by
  refine ⟨?_, ?_⟩
  · rw [hform]
    exact clean_head hhead (clean_map h)
  · rw [hform, ofForm, if_pos hhead, ofForms_map h, hback]

/-- An operation is read if its operands are. -/
theorem Reads.ofOperator {operator : Token} {node : Node} (parts : List Node)
    (ho : operator.Scanned) (hkind : operator.kind ∈ operatorKinds)
    (hform : node.form = .list (.atom operator.text :: parts.map form))
    (h : ∀ part ∈ parts, part.Reads)
    (hback : operation operator.bare (parts.map bare) = node.bare) : node.Reads := by
  have hplain : ∀ kind ∈ operatorKinds, kind ∉ unspelledKinds := by decide
  have hatom := ho.isAtom (List.mem_cons_of_mem _ hkind)
  refine ⟨?_, ?_⟩
  · rw [hform]
    exact .list (List.forall_mem_cons.mpr ⟨.atom hatom, clean_map h⟩)
  · rw [hform, ofForm, if_neg (ho.notMem_heads hkind), ofForms_map h,
      ho.spelled_text (hplain _ hkind), hback]

theorem formToken_name {name : Token} (h : (Leaf.name name).Shown) :
    formToken (.atom name.text) = name.bare :=
  h.1.spelled_text (by rw [h.2]; decide)

theorem reads_name {name : Token} (h : (Leaf.name name).Shown) : Reads (.variable name) :=
  ⟨.atom (h.1.isAtom (by rw [h.2]; decide)), ofAtom_name h⟩

theorem forall_leaves_of_mem {P : Leaf → Prop} {nodes : List Node}
    (h : ∀ leaf ∈ leavesAll nodes, P leaf) : ∀ node ∈ nodes, ∀ leaf ∈ node.leaves, P leaf := by
  rw [leavesAll_eq] at h
  exact fun node hn leaf hl => h leaf (List.mem_flatMap.mpr ⟨node, hn, hl⟩)

theorem not_logical_of_isBinary {kind : TokenKind} (h : kind.isBinary) :
    ¬ (kind = .or ∨ kind = .and) := by
  rcases h with h | h | h | h | h | h | h | h | h | h | h <;> rw [h] <;> decide

theorem reads_expression {node : Node} (h : IsExpression Token.Scanned node)
    (hl : ∀ leaf ∈ node.leaves, leaf.Shown) : node.Reads := by
  induction h with
  | literal _ =>
    have hv := hl _ (by rw [leaves]; exact List.mem_singleton_self _)
    exact ⟨.atom (isAtom_literalText hv), ofAtom_literal hv⟩
  | @grouping inner _ ih =>
    exact .ofHead "group" [inner] (by decide) rfl (by simpa using ih hl) rfl
  | @unary operator right ho hk _ ih =>
    refine .ofOperator [right] ho ?_ rfl (by simpa using ih hl) rfl
    rcases hk with hk | hk <;> rw [hk] <;> decide
  | @binary left right operator _ ho hk _ ihl ihr =>
    obtain ⟨hl, hr⟩ := List.forall_mem_append.mp hl
    exact .ofOperator [left, right] ho hk.mem rfl (by simpa using ⟨ihl hl, ihr hr⟩)
      (if_neg (not_logical_of_isBinary hk))
  | @logical left right operator _ ho hk _ ihl ihr =>
    obtain ⟨hl, hr⟩ := List.forall_mem_append.mp hl
    refine .ofOperator [left, right] ho ?_ rfl (by simpa using ⟨ihl hl, ihr hr⟩) (if_pos hk)
    rcases hk with hk | hk <;> rw [hk] <;> decide
  | reference _ => exact reads_name (hl _ (by rw [leaves]; exact List.mem_singleton_self _))
  | @assign name value _ _ ih =>
    obtain ⟨hn, hv⟩ := List.forall_mem_cons.mp hl
    exact .ofHead "=" [.variable name, value] (by decide) rfl
      (by simpa using ⟨reads_name hn, ih hv⟩)
      (congrArg (assign · value.bare) (formToken_name hn))
  | @call callee paren arguments _ _ _ _ ihc iha =>
    obtain ⟨hc, ha⟩ := List.forall_mem_append.mp hl
    have hparts := fun node hn => iha node hn (forall_leaves_of_mem ha node hn)
    refine .ofHead "call" (callee :: arguments) (by decide) ?_
      (List.forall_mem_cons.mpr ⟨ihc hc, hparts⟩) ?_
    · rw [form, formAll_eq]
      rfl
    · rw [bare, bare, bareAll_eq]
      rfl
  | @array bracket elements _ _ ih =>
    refine .ofHead "array" elements (by decide) ?_
      (fun node hn => ih node hn (forall_leaves_of_mem hl node hn)) ?_
    · rw [form, formAll_eq]
    · rw [bare, bare, bareAll_eq]
      rfl
  | @indexGet target index bracket _ _ _ iht ihi =>
    obtain ⟨ht, hi⟩ := List.forall_mem_append.mp hl
    exact .ofHead "index" [target, index] (by decide) rfl (by simpa using ⟨iht ht, ihi hi⟩) rfl
  | @indexSet target index value bracket _ _ _ _ iht ihi ihv =>
    obtain ⟨ht, hrest⟩ := List.forall_mem_append.mp hl
    obtain ⟨hi, hv⟩ := List.forall_mem_append.mp hrest
    exact .ofHead "index=" [target, index, value] (by decide) rfl
      (by simpa using ⟨iht ht, ihi hi, ihv hv⟩) rfl

/-- A function is read if its statements are. Its parameters are no parts but a list of names. -/
theorem reads_function {name : Token} {params : List Token} {body : List Node}
    (hn : (Leaf.name name).Shown) (hp : ∀ param ∈ params, (Leaf.name param).Shown)
    (hb : ∀ node ∈ body, node.Reads) : Reads (.function name params (.sequence body)) := by
  have hform : form (.function name params (.sequence body)) = .list (.atom "fun" ::
      .atom name.text :: .list (params.map fun param => .atom param.text) :: body.map form) := by
    rw [form, formAll_eq]
  have hparams : (params.map fun param => SExpr.atom param.text).map formToken =
      params.map Token.bare := by
    rw [List.map_map]
    exact List.map_congr_left fun param h => formToken_name (hp param h)
  refine ⟨?_, ?_⟩
  · have hsignature : (SExpr.list (params.map fun param => .atom param.text)).Clean :=
      .list (List.forall_mem_map.mpr fun param h => (reads_name (hp param h)).clean)
    rw [hform]
    exact clean_head (by decide) (List.forall_mem_cons.mpr ⟨(reads_name hn).clean,
      List.forall_mem_cons.mpr ⟨hsignature, clean_map hb⟩⟩)
  · rw [hform, ofForm, if_pos (by decide), ofForms, ofForms, ofForms_map hb, bare, bare, bareAll_eq,
      ← hparams, ← formToken_name hn]
    rfl

theorem reads_statement {node : Node} (h : IsStatement Token.Scanned node)
    (hl : ∀ leaf ∈ node.leaves, leaf.Shown) : node.Reads := by
  induction h with
  | @expression inner h =>
    exact .ofHead ";" [inner] (by decide) rfl (by simpa using reads_expression h hl) rfl
  | @print inner h =>
    exact .ofHead "print" [inner] (by decide) rfl (by simpa using reads_expression h hl) rfl
  | @var name value _ hv =>
    obtain ⟨hn, hl⟩ := List.forall_mem_cons.mp hl
    rcases hv with rfl | hv
    · exact .ofHead "var" [.variable name] (by decide) rfl (by simpa using reads_name hn)
        (congrArg (var · .absent) (formToken_name hn))
    · exact .ofHead "var" [.variable name, value] (by decide) (var_some hv.ne_absent name).2
        (by simpa using ⟨reads_name hn, reads_expression hv hl⟩)
        (congrArg (var · value.bare) (formToken_name hn))
  | @block body _ ih =>
    refine .ofHead "block" body (by decide) ?_
      (fun node hn => ih node hn (forall_leaves_of_mem hl node hn)) ?_
    · rw [form, formAll_eq]
    · rw [bare, bare, bareAll_eq]
      rfl
  | @ifThen condition thenBranch hc _ iht =>
    obtain ⟨hlc, hl⟩ := List.forall_mem_append.mp hl
    obtain ⟨hlt, -⟩ := List.forall_mem_append.mp hl
    exact .ofHead "if" [condition, thenBranch] (by decide) rfl
      (by simpa using ⟨reads_expression hc hlc, iht hlt⟩) rfl
  | @ifElse condition thenBranch elseBranch hc _ he iht ihe =>
    obtain ⟨hlc, hl⟩ := List.forall_mem_append.mp hl
    obtain ⟨hlt, hle⟩ := List.forall_mem_append.mp hl
    exact .ofHead "if-else" [condition, thenBranch, elseBranch] (by decide)
      (ifElse_some he.ne_absent condition thenBranch).2
      (by simpa using ⟨reads_expression hc hlc, iht hlt, ihe hle⟩) rfl
  | @whileLoop condition body hc _ ih =>
    obtain ⟨hlc, hlb⟩ := List.forall_mem_append.mp hl
    exact .ofHead "while" [condition, body] (by decide) rfl
      (by simpa using ⟨reads_expression hc hlc, ih hlb⟩) rfl
  | @function name params body _ _ _ ih =>
    obtain ⟨hn, hl⟩ := List.forall_mem_cons.mp hl
    obtain ⟨hp, hlb⟩ := List.forall_mem_append.mp hl
    have hbody := fun node hn => ih node hn (forall_leaves_of_mem hlb node hn)
    exact reads_function hn (fun param hp' => hp _ (List.mem_map_of_mem hp')) hbody
  | @giveBack keyword value _ hv =>
    rcases hv with rfl | hv
    · exact .ofHead "return" [] (by decide) rfl (List.forall_mem_nil _) rfl
    · exact .ofHead "return" [value] (by decide) (giveBack_some hv.ne_absent keyword).2
        (by simpa using reads_expression hv hl) rfl

end Node

end GameScript
