import GameScript.Proofs.Matching.Parser

/-! # The trees of programs

`IsExpression` and `IsStatement` say which trees can come from a source: every operator is one that
its node knows, parts are missing only where they may be, lists of parts are lists of expressions or
of statements, and all tokens satisfy a given condition. Whatever the parser returns is such a tree,
also for a source with errors. -/

namespace GameScript

/-- A constant that a source can write. -/
def IsConstant : Json → Prop
  | .null | .bool _ | .number _ | .string _ => True
  | .int _ | .array _ | .object _ => False

/-- A token that a source can give. -/
structure Token.Written (token : Token) : Prop where
  lexeme : ∃ text, token.lexeme = .string text
  literal : IsConstant token.literal
  line : ∃ line, token.line = .int line

/-- The operators between two values. -/
def TokenKind.isBinary (kind : TokenKind) : Prop :=
  kind = .bangEqual ∨ kind = .equalEqual ∨ kind = .greater ∨ kind = .greaterEqual ∨ kind = .less ∨
    kind = .lessEqual ∨ kind = .minus ∨ kind = .plus ∨ kind = .slash ∨ kind = .star ∨ kind = .percent

/-- A tree that can stand where an expression should be. -/
inductive IsExpression (W : Token → Prop) : Node → Prop where
  | literal {value : Json} : IsConstant value → IsExpression W (.literal value)
  | grouping {inner : Node} : IsExpression W inner → IsExpression W (.grouping inner)
  | unary {operator : Token} {right : Node} :
      W operator → (operator.kind = .bang ∨ operator.kind = .minus) → IsExpression W right →
      IsExpression W (.unary operator right)
  | binary {left right : Node} {operator : Token} :
      IsExpression W left → W operator → operator.kind.isBinary → IsExpression W right →
      IsExpression W (.binary left operator right)
  | logical {left right : Node} {operator : Token} :
      IsExpression W left → W operator → (operator.kind = .or ∨ operator.kind = .and) →
      IsExpression W right → IsExpression W (.logical left operator right)
  | reference {name : Token} : W name → IsExpression W (.variable name)
  | assign {name : Token} {value : Node} :
      W name → IsExpression W value → IsExpression W (.assign name value)
  | call {callee : Node} {paren : Token} {arguments : List Node} :
      IsExpression W callee → W paren → paren.kind = .rightParen →
      (∀ node ∈ arguments, IsExpression W node) →
      IsExpression W (.call callee paren (.sequence arguments))
  | array {bracket : Token} {elements : List Node} :
      W bracket → (∀ node ∈ elements, IsExpression W node) →
      IsExpression W (.array bracket (.sequence elements))
  | indexGet {target index : Node} {bracket : Token} :
      IsExpression W target → W bracket → IsExpression W index →
      IsExpression W (.indexGet target bracket index)
  | indexSet {target index value : Node} {bracket : Token} :
      IsExpression W target → W bracket → IsExpression W index → IsExpression W value →
      IsExpression W (.indexSet target bracket index value)

/-- A tree that can stand where a statement should be. -/
inductive IsStatement (W : Token → Prop) : Node → Prop where
  | expression {inner : Node} : IsExpression W inner → IsStatement W (.expression inner)
  | print {inner : Node} : IsExpression W inner → IsStatement W (.print inner)
  | var {name : Token} {value : Node} :
      W name → (value = .absent ∨ IsExpression W value) → IsStatement W (.var name value)
  | block {body : List Node} :
      (∀ node ∈ body, IsStatement W node) → IsStatement W (.block (.sequence body))
  | ifThen {condition thenBranch : Node} :
      IsExpression W condition → IsStatement W thenBranch →
      IsStatement W (.ifElse condition thenBranch .absent)
  | ifElse {condition thenBranch elseBranch : Node} :
      IsExpression W condition → IsStatement W thenBranch → IsStatement W elseBranch →
      IsStatement W (.ifElse condition thenBranch elseBranch)
  | whileLoop {condition body : Node} :
      IsExpression W condition → IsStatement W body → IsStatement W (.whileLoop condition body)
  | function {name : Token} {params : List Token} {body : List Node} :
      W name → (∀ param ∈ params, W param) → (∀ node ∈ body, IsStatement W node) →
      IsStatement W (.function name params (.sequence body))
  | giveBack {keyword : Token} {value : Node} :
      W keyword → (value = .absent ∨ IsExpression W value) → IsStatement W (.giveBack keyword value)

/-! ## What the parser returns -/

variable {W : Token → Prop}

/-- A relation that holds between equal things of some sort only. -/
def Only {α : Type} (P : α → Prop) (a a' : α) : Prop := P a ∧ a = a'

theorem forall₂_only {α : Type} {P : α → Prop} {as as' : List α} :
    List.Forall₂ (Only P) as as' ↔ (∀ a ∈ as, P a) ∧ as = as' := by
  unfold Only
  rw [List.forall₂_and_left, List.forall₂_eq_eq_eq]

theorem maybe_only {P : Node → Prop} {node node' : Node} (h : Parse.Maybe (Only P) node node') :
    (node = .absent ∨ P node) ∧ node = node' := by
  rcases h with ⟨rfl, rfl⟩ | ⟨h, rfl⟩
  · exact ⟨.inl rfl, rfl⟩
  · exact ⟨.inr h, rfl⟩

/-- The node of an operator of a level and two expressions. -/
theorem IsExpression.operator {level : Level} {operator : Token} {left right : Node}
    (ho : W operator) (hk : level.has operator.kind) (hl : IsExpression W left)
    (hr : IsExpression W right) : IsExpression W (level.node left operator right) := by
  cases level <;> simp only [Level.has, Bool.or_eq_true, decide_eq_true_eq] at hk
  case or => exact .logical hl ho (.inl hk) hr
  case and => exact .logical hl ho (.inr hk) hr
  all_goals exact .binary hl ho (by unfold TokenKind.isBinary; grind) hr

/-- An assignment to an expression is an expression, or the expression stands. -/
theorem related_assignTo {target equals value} {T : Token → Token → Prop}
    (ht : IsExpression W target) (he : T equals equals) (hv : IsExpression W value) :
    Parse.Related T (Only (IsExpression W)) (Parse.assignTo target equals value)
      (Parse.assignTo target equals value) := by
  unfold Parse.assignTo
  split
  · cases ht with
    | reference hn => exact .pure ⟨.assign hn hv, rfl⟩
  · cases ht with
    | indexGet ht hb hi => exact .pure ⟨.indexSet ht hb hi hv, rfl⟩
  · exact (Parse.Related.complain he _).bind fun _ => .pure ⟨ht, rfl⟩

/-- Being an expression or a statement goes along with how the parser builds trees. -/
theorem respects_only (hW : ∀ token, W token → token.Written) :
    Parse.Respects (Only W) (Only (IsExpression W)) (Only (IsStatement W)) where
  kind := by
    intro token _ h
    obtain ⟨-, rfl⟩ := h
    rfl
  truth b := ⟨.literal trivial, rfl⟩
  nothing := ⟨.literal trivial, rfl⟩
  constant := by
    intro token _ h
    obtain ⟨ht, rfl⟩ := h
    exact ⟨.literal (hW token ht).literal, rfl⟩
  reference := by
    intro name _ h _
    obtain ⟨hn, rfl⟩ := h
    exact ⟨.reference hn, rfl⟩
  grouping := by
    intro inner _ h
    obtain ⟨hi, rfl⟩ := h
    exact ⟨.grouping hi, rfl⟩
  array := by
    intro bracket _ elements elements' h hs
    obtain ⟨hb, rfl⟩ := h
    obtain ⟨hall, rfl⟩ := forall₂_only.mp hs
    exact ⟨.array hb hall, rfl⟩
  call := by
    intro callee _ paren _ arguments arguments' h₁ h₂ hk hs
    obtain ⟨hc, rfl⟩ := h₁
    obtain ⟨hp, rfl⟩ := h₂
    obtain ⟨hall, rfl⟩ := forall₂_only.mp hs
    exact ⟨.call hc hp hk hall, rfl⟩
  indexGet := by
    intro target _ bracket _ index _ h₁ h₂ h₃
    obtain ⟨ht, rfl⟩ := h₁
    obtain ⟨hb, rfl⟩ := h₂
    obtain ⟨hi, rfl⟩ := h₃
    exact ⟨.indexGet ht hb hi, rfl⟩
  sign := by
    intro operator _ right _ h₁ hk h₂
    obtain ⟨ho, rfl⟩ := h₁
    obtain ⟨hr, rfl⟩ := h₂
    exact ⟨.unary ho hk hr, rfl⟩
  operator := by
    intro level operator _ left _ right _ h₁ hk h₂ h₃
    obtain ⟨ho, rfl⟩ := h₁
    obtain ⟨hl, rfl⟩ := h₂
    obtain ⟨hr, rfl⟩ := h₃
    exact ⟨.operator ho hk hl hr, rfl⟩
  assign := by
    intro target _ equals _ value _ h₁ h₂ h₃
    obtain ⟨ht, rfl⟩ := h₁
    obtain ⟨he, rfl⟩ := h₂
    obtain ⟨hv, rfl⟩ := h₃
    exact related_assignTo ht ⟨he, rfl⟩ hv
  simple := by
    intro inner _ h
    obtain ⟨hi, rfl⟩ := h
    exact ⟨.expression hi, rfl⟩
  print := by
    intro inner _ h
    obtain ⟨hi, rfl⟩ := h
    exact ⟨.print hi, rfl⟩
  var := by
    intro name _ value value' h _ hv
    obtain ⟨hn, rfl⟩ := h
    obtain ⟨hvalue, rfl⟩ := maybe_only hv
    exact ⟨.var hn hvalue, rfl⟩
  block := by
    intro body body' hb
    obtain ⟨hall, rfl⟩ := forall₂_only.mp hb
    exact ⟨.block hall, rfl⟩
  conditional := by
    intro condition _ thenBranch _ elseBranch elseBranch' h₁ h₂ he
    obtain ⟨hc, rfl⟩ := h₁
    obtain ⟨ht, rfl⟩ := h₂
    obtain ⟨rfl | helse, rfl⟩ := maybe_only he
    · exact ⟨.ifThen hc ht, rfl⟩
    · exact ⟨.ifElse hc ht helse, rfl⟩
  whileLoop := by
    intro condition _ body _ h₁ h₂
    obtain ⟨hc, rfl⟩ := h₁
    obtain ⟨hb, rfl⟩ := h₂
    exact ⟨.whileLoop hc hb, rfl⟩
  function := by
    intro name _ params params' body body' h _ hp hb
    obtain ⟨hn, rfl⟩ := h
    obtain ⟨hparams, rfl⟩ := forall₂_only.mp (hp.imp fun _ _ h => h.1)
    obtain ⟨hbody, rfl⟩ := forall₂_only.mp hb
    exact ⟨.function hn hparams hbody, rfl⟩
  giveBack := by
    intro keyword _ value value' h hv
    obtain ⟨hk, rfl⟩ := h
    obtain ⟨hvalue, rfl⟩ := maybe_only hv
    exact ⟨.giveBack hk hvalue, rfl⟩

/-- Whatever is reported, the statements that the parser returns are statements. -/
theorem parseTokens_isStatement (hW : ∀ token, W token → token.Written) (limits : Limits)
    {tokens : List Token} {finish : Token} (ht : ∀ token ∈ tokens, W token) (hf : W finish) :
    ∀ node ∈ (parseTokens limits tokens finish).statements, IsStatement W node := by
  have h := parseTokens_related (respects_only hW) limits (forall₂_only.mpr ⟨ht, rfl⟩) ⟨hf, rfl⟩
  exact (forall₂_only.mp h.1).1

/-! ## What the scanner returns -/

/-- A piece whose literal, if it is a token, is a constant. -/
def Piece.HasConstant : Piece → Prop
  | .token _ _ literal => IsConstant literal
  | _ => True

theorem Piece.first_hasConstant (c : Char) (rest : List Char) : (first c rest).1.HasConstant := by
  unfold first slashPiece lineComment blockComment stringPiece numberPiece wordPiece equalsPiece
  dsimp only
  repeat' split
  all_goals trivial

theorem Piece.split_hasConstant (fuel : Nat) (source : List Char) :
    ∀ piece ∈ split fuel source, piece.HasConstant := by
  fun_induction split fuel source with
  | case1 => nofun
  | case2 => nofun
  | case3 fuel c rest ih =>
    intro piece h
    rcases h with _ | ⟨_, hp⟩
    · exact first_hasConstant c rest
    · exact ih piece hp

theorem Scan.ofPieces_written {pieces : List Piece} (h : ∀ piece ∈ pieces, piece.HasConstant)
    (line : Int) : ∀ token ∈ (ofPieces line pieces).tokens, token.Written := by
  induction pieces generalizing line with
  | nil => nofun
  | cons piece rest ih =>
    intro token ht
    rcases List.mem_append.mp ht with ht | ht
    · have hp := h piece (List.mem_cons_self ..)
      cases piece with
      | token kind text literal =>
        obtain rfl : token = _ := by simpa [Piece.token?] using ht
        exact ⟨⟨_, rfl⟩, hp, ⟨_, rfl⟩⟩
      | _ => simp [Piece.token?] at ht
    · exact ih (fun piece hp => h piece (List.mem_cons_of_mem _ hp)) _ token ht

/-- The tokens of a source are such as a source can give. -/
theorem Scan.ofSource_written (source : String) :
    ∀ token ∈ (ofSource source).tokens, token.Written :=
  ofPieces_written (Piece.split_hasConstant _ _) 1

theorem Token.finish_written (line : Int) : (Token.finish line).Written :=
  ⟨⟨_, rfl⟩, trivial, ⟨_, rfl⟩⟩

/-- The trees of a source. -/
theorem parseSource_isStatement (limits : Limits) (source : String) :
    ∀ node ∈ (parseSource limits source).statements, IsStatement Token.Written node :=
  parseTokens_isStatement (fun _ h => h) limits (Scan.ofSource_written source)
    (Token.finish_written _)

end GameScript
