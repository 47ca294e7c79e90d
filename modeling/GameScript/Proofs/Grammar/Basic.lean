import GameScript.Tree.Parser

/-! # The grammar of programs, apart from the parser

`Derives` relates the tokens of an expression to its tree, `Builds` those of declarations and
statements. Loops of the grammar carry the tree built so far, so that an operator level associates
to the left by the shape of its rule. An `else` could belong to several conditionals; `Builds` takes
a proposition that says whether the nearest one must take it. Depth plays no role here. -/

namespace GameScript.Grammar

variable {α : Type}

/-! ## Expressions -/

/-- The phrases of expressions. -/
inductive Symbol where
  | expression
  | operators (level : Level)
  /-- Operators of a level with their right operands, after a left operand. -/
  | chain (level : Level) (left : Node)
  | unary
  | call
  /-- Calls and indexings, after an expression. -/
  | suffixes (target : Node)
  | primary
  /-- One or more expressions between commas. -/
  | items
  /-- Expressions between commas, or none. -/
  | list

/-- The operands of a level are the phrases of the next tighter one. -/
def operand : Level → Symbol
  | .or => .operators .and
  | .and => .operators .equality
  | .equality => .operators .comparison
  | .comparison => .operators .term
  | .term => .operators .factor
  | .factor => .unary

/-- The operators of a level. -/
def symbols : Level → List TokenKind
  | .or => [.or]
  | .and => [.and]
  | .equality => [.bangEqual, .equalEqual]
  | .comparison => [.greater, .greaterEqual, .less, .lessEqual]
  | .term => [.minus, .plus]
  | .factor => [.slash, .star, .percent]

/-- The tree of two operands and an operator of a level. -/
def combine : Level → Node → Token → Node → Node
  | .or | .and => .logical
  | .equality | .comparison | .term | .factor => .binary

theorem has_iff (level : Level) (kind : TokenKind) : level.has kind ↔ kind ∈ symbols level := by
  cases level <;> simp [Level.has, symbols, or_assoc]

theorem node_eq (level : Level) : level.node = combine level := by
  cases level <;> rfl

/-- The tokens of a phrase and its tree. -/
inductive Derives : Symbol → List Token → Node → Prop where
  | assignName {name equals : Token} {ts : List Token} {value : Node} :
      name.kind = .identifier → equals.kind = .equal → Derives .expression ts value →
      Derives .expression (name :: equals :: ts) (.assign name value)
  | assignElement {opening closing equals : Token} {ts ts' ts'' : List Token}
      {target index value : Node} :
      Derives .call ts target → opening.kind = .leftBracket → Derives .expression ts' index →
      closing.kind = .rightBracket → equals.kind = .equal → Derives .expression ts'' value →
      Derives .expression (ts ++ opening :: (ts' ++ closing :: equals :: ts''))
        (.indexSet target opening index value)
  | value {ts : List Token} {node : Node} :
      Derives (.operators .or) ts node → Derives .expression ts node
  | operators {level : Level} {ts ts' : List Token} {left node : Node} :
      Derives (operand level) ts left → Derives (.chain level left) ts' node →
      Derives (.operators level) (ts ++ ts') node
  | chainEnd {level : Level} {left : Node} : Derives (.chain level left) [] left
  | chainStep {level : Level} {operator : Token} {ts ts' : List Token} {left right node : Node} :
      operator.kind ∈ symbols level → Derives (operand level) ts right →
      Derives (.chain level (combine level left operator right)) ts' node →
      Derives (.chain level left) (operator :: (ts ++ ts')) node
  | sign {operator : Token} {ts : List Token} {right : Node} :
      (operator.kind = .bang ∨ operator.kind = .minus) → Derives .unary ts right →
      Derives .unary (operator :: ts) (.unary operator right)
  | unsigned {ts : List Token} {node : Node} : Derives .call ts node → Derives .unary ts node
  | call {ts ts' : List Token} {target node : Node} :
      Derives .primary ts target → Derives (.suffixes target) ts' node →
      Derives .call (ts ++ ts') node
  | suffixesEnd {target : Node} : Derives (.suffixes target) [] target
  | suffixCall {opening closing : Token} {ts ts' : List Token} {arguments : List Node}
      {target node : Node} :
      opening.kind = .leftParen → Derives .list ts (.sequence arguments) →
      arguments.length ≤ 255 → closing.kind = .rightParen →
      Derives (.suffixes (.call target closing (.sequence arguments))) ts' node →
      Derives (.suffixes target) (opening :: (ts ++ closing :: ts')) node
  | suffixIndex {opening closing : Token} {ts ts' : List Token} {index target node : Node} :
      opening.kind = .leftBracket → Derives .expression ts index → closing.kind = .rightBracket →
      Derives (.suffixes (.indexGet target opening index)) ts' node →
      Derives (.suffixes target) (opening :: (ts ++ closing :: ts')) node
  | falsehood {token : Token} :
      token.kind = .false → Derives .primary [token] (.literal (.bool false))
  | truth {token : Token} : token.kind = .true → Derives .primary [token] (.literal (.bool true))
  | nothing {token : Token} : token.kind = .nil → Derives .primary [token] (.literal .null)
  | constant {token : Token} : (token.kind = .number ∨ token.kind = .string) →
      Derives .primary [token] (.literal token.literal)
  | reference {token : Token} :
      token.kind = .identifier → Derives .primary [token] (.variable token)
  | grouping {opening closing : Token} {ts : List Token} {node : Node} :
      opening.kind = .leftParen → Derives .expression ts node → closing.kind = .rightParen →
      Derives .primary (opening :: (ts ++ [closing])) (.grouping node)
  | array {opening closing : Token} {ts : List Token} {elements : Node} :
      opening.kind = .leftBracket → Derives .list ts elements → closing.kind = .rightBracket →
      Derives .primary (opening :: (ts ++ [closing])) (.array opening elements)
  | item {ts : List Token} {node : Node} :
      Derives .expression ts node → Derives .items ts (.sequence [node])
  | moreItems {comma : Token} {ts ts' : List Token} {node : Node} {nodes : List Node} :
      Derives .expression ts node → comma.kind = .comma → Derives .items ts' (.sequence nodes) →
      Derives .items (ts ++ comma :: ts') (.sequence (node :: nodes))
  | noItems : Derives .list [] (.sequence [])
  | someItems {ts : List Token} {items : Node} : Derives .items ts items → Derives .list ts items

/-! ### The targets of assignments -/

theorem Derives.chain_inv {level : Level} {left node : Node} {ts : List Token}
    (h : Derives (.chain level left) ts node) :
    (ts = [] ∧ node = left) ∨ ∃ l operator r, node = combine level l operator r := by
  generalize hs : Symbol.chain level left = s at h
  induction h generalizing left with
  | chainEnd => cases hs; exact .inl ⟨rfl, rfl⟩
  | chainStep _ _ _ _ ih =>
    cases hs
    rcases ih rfl with ⟨-, rfl⟩ | h
    · exact .inr ⟨_, _, _, rfl⟩
    · exact .inr h
  | _ => cases hs

/-- A phrase of a level whose tree is no operator of the level is an operand. -/
theorem Derives.operand_of_ne {level : Level} {node : Node} {ts : List Token}
    (h : Derives (.operators level) ts node)
    (hne : ∀ l operator r, node ≠ combine level l operator r) : Derives (operand level) ts node := by
  cases h with
  | operators hleft hchain =>
    rcases hchain.chain_inv with ⟨rfl, rfl⟩ | ⟨l, operator, r, rfl⟩
    · simpa using hleft
    · exact absurd rfl (hne l operator r)

/-- A phrase whose tree is no operator at all is a call phrase. -/
theorem Derives.call_of_ne {node : Node} {ts : List Token} (h : Derives (.operators .or) ts node)
    (hu : ∀ operator r, node ≠ .unary operator r) (hb : ∀ l operator r, node ≠ .binary l operator r)
    (hl : ∀ l operator r, node ≠ .logical l operator r) : Derives .call ts node := by
  have hunary : Derives .unary ts node :=
    (((((h.operand_of_ne hl).operand_of_ne hl).operand_of_ne hb).operand_of_ne hb).operand_of_ne
      hb).operand_of_ne hb
  cases hunary with
  | sign => exact absurd rfl (hu _ _)
  | unsigned hcall => exact hcall

/-- The last of the calls and indexings after an expression. -/
theorem Derives.suffixes_inv {target node : Node} {ts : List Token}
    (h : Derives (.suffixes target) ts node) :
    (ts = [] ∧ node = target) ∨ (∃ callee paren arguments, node = .call callee paren arguments) ∨
    ∃ container opening index ts₁ ts₂ closing, node = .indexGet container opening index ∧
      ts = ts₁ ++ opening :: (ts₂ ++ [closing]) ∧ Derives (.suffixes target) ts₁ container ∧
      opening.kind = .leftBracket ∧ Derives .expression ts₂ index ∧ closing.kind = .rightBracket := by
  generalize hs : Symbol.suffixes target = s at h
  induction h generalizing target with
  | suffixesEnd => cases hs; exact .inl ⟨rfl, rfl⟩
  | suffixCall ho hl hn hc _ _ ih =>
    cases hs
    rcases ih rfl with ⟨-, rfl⟩ | hcall | ⟨_, _, _, ts₁, _, _, rfl, rfl, hd, h₁, h₂, h₃⟩
    · exact .inr (.inl ⟨_, _, _, rfl⟩)
    · exact .inr (.inl hcall)
    · exact .inr (.inr ⟨_, _, _, _, _, _, rfl, by simp, .suffixCall ho hl hn hc hd, h₁, h₂, h₃⟩)
  | suffixIndex ho hi hc _ _ ih =>
    cases hs
    rcases ih rfl with ⟨rfl, rfl⟩ | hcall | ⟨_, _, _, ts₁, _, _, rfl, rfl, hd, h₁, h₂, h₃⟩
    · exact .inr (.inr ⟨_, _, _, [], _, _, rfl, rfl, .suffixesEnd, ho, hi, hc⟩)
    · exact .inr (.inl hcall)
    · exact .inr (.inr ⟨_, _, _, _, _, _, rfl, by simp, .suffixIndex ho hi hc hd, h₁, h₂, h₃⟩)
  | _ => cases hs

theorem Derives.variable_inv {name : Token} {ts : List Token}
    (h : Derives (.operators .or) ts (.variable name)) : ts = [name] ∧ name.kind = .identifier := by
  cases h.call_of_ne nofun nofun nofun with
  | call hprimary hsuffixes =>
    rcases hsuffixes.suffixes_inv with ⟨rfl, rfl⟩ | ⟨_, _, _, he⟩ | ⟨_, _, _, _, _, _, he, -⟩
    · cases hprimary with
      | reference hk => exact ⟨rfl, hk⟩
    · cases he
    · cases he

theorem Derives.indexGet_inv {target index : Node} {opening : Token} {ts : List Token}
    (h : Derives (.operators .or) ts (.indexGet target opening index)) :
    ∃ ts₁ ts₂ closing, ts = ts₁ ++ opening :: (ts₂ ++ [closing]) ∧ Derives .call ts₁ target ∧
      opening.kind = .leftBracket ∧ Derives .expression ts₂ index ∧ closing.kind = .rightBracket := by
  cases h.call_of_ne nofun nofun nofun with
  | call hprimary hsuffixes =>
    rcases hsuffixes.suffixes_inv with ⟨rfl, rfl⟩ | ⟨_, _, _, he⟩ |
      ⟨_, _, _, ts₁, ts₂, closing, he, rfl, hd, h₁, h₂, h₃⟩
    · cases hprimary
    · cases he
    · cases he
      exact ⟨_, ts₂, closing, by simp, .call hprimary hd, h₁, h₂, h₃⟩

/-! ## Statements -/

/-- Phrases of one sort between commas, at least one. -/
inductive Separated (item : List Token → α → Prop) : List Token → List α → Prop where
  | one {ts : List Token} {a : α} : item ts a → Separated item ts [a]
  | more {comma : Token} {ts ts' : List Token} {a : α} {as : List α} :
      item ts a → comma.kind = .comma → Separated item ts' as →
      Separated item (ts ++ comma :: ts') (a :: as)

/-- Phrases of one sort between commas, or none. -/
inductive Listed (item : List Token → α → Prop) : List Token → List α → Prop where
  | none : Listed item [] []
  | some {ts : List Token} {as : List α} : Separated item ts as → Listed item ts as

/-- Items of one sort are items of another, if those that are no longer than a bound are. -/
theorem Listed.imp {R S : List Token → α → Prop} {ts : List Token} {as : List α}
    (h : Listed R ts as) (n : Nat) (hRS : ∀ ts a, ts.length ≤ n → R ts a → S ts a)
    (hn : ts.length ≤ n) : Listed S ts as := by
  cases h with
  | none => exact .none
  | some h =>
    refine .some ?_
    induction h with
    | one h => exact .one (hRS _ _ hn h)
    | more h hk _ ih =>
      simp only [List.length_append, List.length_cons] at hn
      exact .more (hRS _ _ (by omega) h) hk (ih (by omega))

/-- The token of a name, by itself. -/
def IsName (ts : List Token) (name : Token) : Prop := ts = [name] ∧ name.kind = .identifier

/-- A variable's declaration, after the word that starts it. -/
inductive Variable : List Token → Node → Prop where
  | bare {name semicolon : Token} :
      name.kind = .identifier → semicolon.kind = .semicolon →
      Variable [name, semicolon] (.var name .absent)
  | initialized {name equals semicolon : Token} {ts : List Token} {value : Node} :
      name.kind = .identifier → equals.kind = .equal → Derives .expression ts value →
      semicolon.kind = .semicolon →
      Variable (name :: equals :: (ts ++ [semicolon])) (.var name value)

/-- An expression as a statement. -/
inductive Simple : List Token → Node → Prop where
  | mk {semicolon : Token} {ts : List Token} {node : Node} :
      Derives .expression ts node → semicolon.kind = .semicolon →
      Simple (ts ++ [semicolon]) (.expression node)

/-- An expression that may be missing. -/
inductive Clause : List Token → Option Node → Prop where
  | none : Clause [] none
  | some {ts : List Token} {node : Node} : Derives .expression ts node → Clause ts (some node)

/-- The first clause of a `for` loop, its semicolon included. -/
inductive Initializer : List Token → Option Node → Prop where
  | none {semicolon : Token} : semicolon.kind = .semicolon → Initializer [semicolon] none
  | declared {keyword : Token} {ts : List Token} {node : Node} :
      keyword.kind = .var → Variable ts node → Initializer (keyword :: ts) (some node)
  | simple {ts : List Token} {node : Node} : Simple ts node → Initializer ts (some node)

/-- The body of a loop with an increment after it. -/
def loopBody (body : Node) : Option Node → Node
  | none => body
  | some increment => .block (.sequence [body, .expression increment])

/-- A `for` loop in terms of the other statements. -/
def loopTree (initializer condition increment : Option Node) (body : Node) : Node :=
  .block (.sequence (initializer.toList ++
    [.whileLoop (condition.getD (.literal (.bool true))) (loopBody body increment)]))

theorem forLoop_eq (initializer condition increment : Option Node) (body : Node) :
    Parse.forLoop initializer condition increment body =
      loopTree initializer condition increment body := by
  cases increment <;> rfl

/-- The phrases of programs. -/
inductive Form where
  | declaration
  /-- A statement, which is open if it ends in a conditional that could take an `else`. -/
  | statement (isOpen : Bool)
  | declarations

/-- The tokens of declarations and statements and their tree. If `nearest`, an `else` belongs to the
nearest conditional that can take it. -/
inductive Builds (nearest : Prop) : Form → List Token → Node → Prop where
  | function {keyword name opening closing brace ending : Token} {ts ts' params : List Token}
      {body : Node} :
      keyword.kind = .fun → name.kind = .identifier → opening.kind = .leftParen →
      Listed IsName ts params → params.length ≤ 255 → closing.kind = .rightParen →
      brace.kind = .leftBrace → Builds nearest .declarations ts' body → ending.kind = .rightBrace →
      Builds nearest .declaration
        (keyword :: name :: opening :: (ts ++ closing :: brace :: (ts' ++ [ending])))
        (.function name params body)
  | declared {keyword : Token} {ts : List Token} {node : Node} :
      keyword.kind = .var → Variable ts node → Builds nearest .declaration (keyword :: ts) node
  | statement {isOpen : Bool} {ts : List Token} {node : Node} :
      Builds nearest (.statement isOpen) ts node → Builds nearest .declaration ts node
  | forLoop {keyword opening semicolon closing : Token} {ts₁ ts₂ ts₃ ts₄ : List Token}
      {initializer condition increment : Option Node} {body : Node} {isOpen : Bool} :
      keyword.kind = .for → opening.kind = .leftParen → Initializer ts₁ initializer →
      Clause ts₂ condition → semicolon.kind = .semicolon → Clause ts₃ increment →
      closing.kind = .rightParen → Builds nearest (.statement isOpen) ts₄ body →
      Builds nearest (.statement isOpen)
        (keyword :: opening :: (ts₁ ++ (ts₂ ++ semicolon :: (ts₃ ++ closing :: ts₄))))
        (loopTree initializer condition increment body)
  | ifThen {keyword opening closing : Token} {ts ts' : List Token} {condition thenBranch : Node}
      {isOpen : Bool} :
      keyword.kind = .if → opening.kind = .leftParen → Derives .expression ts condition →
      closing.kind = .rightParen → Builds nearest (.statement isOpen) ts' thenBranch →
      Builds nearest (.statement true) (keyword :: opening :: (ts ++ closing :: ts'))
        (.ifElse condition thenBranch .absent)
  | ifElse {keyword opening closing word : Token} {ts ts' ts'' : List Token}
      {condition thenBranch elseBranch : Node} {isOpen isOpen' : Bool} :
      keyword.kind = .if → opening.kind = .leftParen → Derives .expression ts condition →
      closing.kind = .rightParen → Builds nearest (.statement isOpen) ts' thenBranch →
      (nearest → isOpen = false) → word.kind = .else →
      Builds nearest (.statement isOpen') ts'' elseBranch →
      Builds nearest (.statement isOpen')
        (keyword :: opening :: (ts ++ closing :: (ts' ++ word :: ts'')))
        (.ifElse condition thenBranch elseBranch)
  | print {keyword semicolon : Token} {ts : List Token} {value : Node} :
      keyword.kind = .print → Derives .expression ts value → semicolon.kind = .semicolon →
      Builds nearest (.statement false) (keyword :: (ts ++ [semicolon])) (.print value)
  | giveBack {keyword semicolon : Token} {ts : List Token} {value : Option Node} :
      keyword.kind = .return → Clause ts value → semicolon.kind = .semicolon →
      Builds nearest (.statement false) (keyword :: (ts ++ [semicolon]))
        (.giveBack keyword (value.getD .absent))
  | whileLoop {keyword opening closing : Token} {ts ts' : List Token} {condition body : Node}
      {isOpen : Bool} :
      keyword.kind = .while → opening.kind = .leftParen → Derives .expression ts condition →
      closing.kind = .rightParen → Builds nearest (.statement isOpen) ts' body →
      Builds nearest (.statement isOpen) (keyword :: opening :: (ts ++ closing :: ts'))
        (.whileLoop condition body)
  | block {opening closing : Token} {ts : List Token} {body : Node} :
      opening.kind = .leftBrace → Builds nearest .declarations ts body →
      closing.kind = .rightBrace →
      Builds nearest (.statement false) (opening :: (ts ++ [closing])) (.block body)
  | simple {ts : List Token} {node : Node} :
      Simple ts node → Builds nearest (.statement false) ts node
  | none : Builds nearest .declarations [] (.sequence [])
  | more {ts ts' : List Token} {node : Node} {nodes : List Node} :
      Builds nearest .declaration ts node → Builds nearest .declarations ts' (.sequence nodes) →
      Builds nearest .declarations (ts ++ ts') (.sequence (node :: nodes))

/-- The tokens of a program, but for the one that ends it, and its trees. -/
def Program (nearest : Prop) (ts : List Token) (trees : List Node) : Prop :=
  Builds nearest .declarations ts (.sequence trees)

end GameScript.Grammar
