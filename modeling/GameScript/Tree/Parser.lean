import GameScript.Limits
import GameScript.Token.Scanner
import GameScript.Tree.Cursor

/-! From tokens to syntax trees.

Every rule takes how many steps may still be open below it, and takes one or more of them itself. -/

namespace GameScript

/-! ## Operators -/

/-- The levels of binary operators, from the loosest to the tightest. -/
inductive Level where
  | or | and | equality | comparison | term | factor
  deriving Repr, DecidableEq

namespace Level

/-- The operators of a level. -/
def has : Level → TokenKind → Bool
  | .or, kind => kind = .or
  | .and, kind => kind = .and
  | .equality, kind => kind = .bangEqual || kind = .equalEqual
  | .comparison, kind =>
    kind = .greater || kind = .greaterEqual || kind = .less || kind = .lessEqual
  | .term, kind => kind = .minus || kind = .plus
  | .factor, kind => kind = .slash || kind = .star || kind = .percent

/-- The node of an operator of a level. -/
def node : Level → Node → Token → Node → Node
  | .or, left, operator, right | .and, left, operator, right => .logical left operator right
  | _, left, operator, right => .binary left operator right

end Level

namespace Parse

/-- Another operator of a level with its right operand. -/
def anotherOperator (level : Level) (operand : Parse Node) (left : Node) : Parse (Option Node) := do
  match ← accept level.has with
  | some operator => return some (level.node left operator (← operand))
  | none => pure none

/-! ## Calls and indexing -/

/-- The arguments of a call whose opening parenthesis has been read. -/
def callRest (inner : Parse Node) (callee : Node) : Parse Node := do
  let arguments ← items .rightParen (some "Can't have more than 255 arguments.") inner
  let paren ← expect .rightParen "Expect ')' after arguments."
  pure (.call callee paren (.sequence arguments))

/-- The index of an element whose opening bracket has been read. -/
def indexRest (inner : Parse Node) (target : Node) (bracket : Token) : Parse Node := do
  let index ← inner
  discard <| expect .rightBracket "Expect ']' after index."
  pure (.indexGet target bracket index)

/-- Another call or indexing after an expression. -/
def anotherSuffix (argument index : Parse Node) (target : Node) : Parse (Option Node) := do
  match ← accept fun kind => kind = .leftParen || kind = .leftBracket with
  | some opening =>
    if opening.kind = .leftParen then return some (← callRest argument target)
    else return some (← indexRest index target opening)
  | none => pure none

/-- An expression in parentheses whose opening one has been read. -/
def groupingRest (inner : Parse Node) : Parse Node := do
  let node ← inner
  discard <| expect .rightParen "Expect ')' after expression."
  pure (.grouping node)

/-- The elements of an array whose opening bracket has been read. -/
def arrayRest (inner : Parse Node) (bracket : Token) : Parse Node := do
  let elements ← items .rightBracket none inner
  discard <| expect .rightBracket "Expect ']' after array elements."
  pure (.array bracket (.sequence elements))

/-- The kinds of token that can begin a primary expression. -/
def startsPrimary (kind : TokenKind) : Bool :=
  kind = .false || kind = .true || kind = .nil || kind = .number || kind = .string ||
    kind = .identifier || kind = .leftParen || kind = .leftBracket

/-- What an expression is built from: constants, names, parentheses and arrays. -/
def primaryFrom (inner : Parse Node) : Parse Node := do
  match ← accept startsPrimary with
  | some token =>
    match token.kind with
    | .false => pure (.literal (.bool false))
    | .true => pure (.literal (.bool true))
    | .nil => pure (.literal .null)
    | .identifier => pure (.variable token)
    | .leftParen => groupingRest inner
    | .leftBracket => arrayRest inner token
    | _ => pure (.literal token.literal)
  | none => fail "Expect expression."

/-! ## Expressions -/

/-- The assignment to an expression. Names and indexed elements can be assigned to; otherwise the
equals sign is reported and the expression stands. -/
def assignTo (target : Node) (equals : Token) (value : Node) : Parse Node :=
  match target with
  | .variable name => pure (.assign name value)
  | .indexGet container bracket index => pure (.indexSet container bracket index value)
  | _ => do
    complain equals "Invalid assignment target."
    pure target

mutual

def expression : Nat → Parse Node
  | 0 => tooDeep
  | depth + 1 => assignment depth
termination_by structural depth => depth

/-- Assignment is the loosest operator and associates to the right. -/
def assignment : Nat → Parse Node
  | 0 => tooDeep
  | depth + 1 => do
    let left ← operators .or depth
    match ← accept (· = .equal) with
    | some equals => assignTo left equals (← assignment depth)
    | none => pure left
termination_by structural depth => depth

/-- Operands of a level and all tighter ones. The two loosest levels take one step, the others two. -/
def operators (level : Level) : Nat → Parse Node
  | depth + 2 => do
    let operand := match level with
      | .or => operators .and (depth + 1)
      | .and => operators .equality (depth + 1)
      | .equality => operators .comparison depth
      | .comparison => operators .term depth
      | .term => operators .factor depth
      | .factor => unary depth
    let left ← operand
    repeatWhile (anotherOperator level operand) left
  | _ => tooDeep
termination_by structural depth => depth

/-- Any number of signs before a call or indexing. -/
def unary : Nat → Parse Node
  | 0 => tooDeep
  | depth + 1 => do
    match ← accept fun kind => kind = .bang || kind = .minus with
    | some operator => return .unary operator (← unary depth)
    | none => suffixed depth
termination_by structural depth => depth

/-- A primary expression with calls and indexings after it. Arguments take one step more. -/
def suffixed : Nat → Parse Node
  | depth + 2 => do
    let target ← primary (depth + 1)
    repeatWhile (anotherSuffix (expression depth) (expression (depth + 1))) target
  | _ => tooDeep
termination_by structural depth => depth

/-- A primary expression. Looking at the next token takes four steps. -/
def primary : Nat → Parse Node
  | depth + 5 => primaryFrom (expression (depth + 4))
  | _ => tooDeep
termination_by structural depth => depth

end

/-! ## Statements -/

/-- An expression as a statement. -/
def expressionStatement (inner : Parse Node) : Parse Node := do
  let node ← inner
  discard <| expect .semicolon "Expect ';' after expression."
  pure (.expression node)

/-- A variable's declaration, after the word that starts it. -/
def varDeclaration (inner : Parse Node) : Parse Node := do
  let name ← expect .identifier "Expect variable name."
  let initializer ← optional .equal inner
  discard <| expect .semicolon "Expect ';' after variable declaration."
  pure (.var name initializer)

/-- Another declaration, unless the declarations end here. Those already read are in reverse. -/
def anotherDeclaration (ended : Parse Bool) (declaration : Parse (Option Node)) (done : List Node) :
    Parse (Option (List Node)) := do
  if ← ended then pure none
  else return some ((← declaration).toList ++ done)

/-- Does a block end here, with its brace or with the program? -/
def blockEnds : Parse Bool := return (← check .rightBrace) || (← atEnd)

/-- The declarations of a block whose opening brace has been read. -/
def blockRest (declaration : Parse (Option Node)) : Parse Node := do
  let nodes ← repeatWhile (anotherDeclaration blockEnds declaration) []
  discard <| expect .rightBrace "Expect '\x7d' after block."
  pure (.sequence nodes.reverse)

/-- A function's declaration, after the word that starts it. -/
def functionRest (declaration : Parse (Option Node)) : Parse Node := do
  let name ← expect .identifier "Expect function name."
  discard <| expect .leftParen "Expect '(' after function name."
  let params ← items .rightParen (some "Can't have more than 255 parameters.")
    (expect .identifier "Expect parameter name.")
  discard <| expect .rightParen "Expect ')' after parameters."
  discard <| expect .leftBrace "Expect '\x7b' before function body."
  let body ← blockRest declaration
  pure (.function name params body)

/-- A `for` loop written with the other statements: a block of the initializer and a loop whose body
is followed by the increment. Without a condition it never ends by itself. -/
def forLoop (initializer condition increment : Option Node) (body : Node) : Node :=
  let body := match increment with
    | some increment => .block (.sequence [body, .expression increment])
    | none => body
  let loop := .whileLoop (condition.getD (.literal (.bool true))) body
  .block (.sequence (initializer.toList ++ [loop]))

/-- A clause of a `for` loop that ends before a closing token and may be empty. -/
def clause (closing : TokenKind) (inner : Parse Node) : Parse (Option Node) := do
  if ← check closing then pure none else return some (← inner)

/-- The first clause of a `for` loop, its semicolon included. -/
def initializerClause (inner : Parse Node) : Parse (Option Node) := do
  match ← accept fun kind => kind = .semicolon || kind = .var with
  | some token =>
    if token.kind = .semicolon then pure none else return some (← varDeclaration inner)
  | none => return some (← expressionStatement inner)

/-- A `for` loop, after the word that starts it. What stands in its first clause is `initial`. -/
def forRest (initial inner body : Parse Node) : Parse Node := do
  discard <| expect .leftParen "Expect '(' after 'for'."
  let initializer ← initializerClause initial
  let condition ← clause .semicolon inner
  discard <| expect .semicolon "Expect ';' after loop condition."
  let increment ← clause .rightParen inner
  discard <| expect .rightParen "Expect ')' after for clauses."
  return forLoop initializer condition increment (← body)

/-- A conditional; an `else` belongs to the nearest one that is open. -/
def ifRest (inner branch : Parse Node) : Parse Node := do
  discard <| expect .leftParen "Expect '(' after 'if'."
  let condition ← inner
  discard <| expect .rightParen "Expect ')' after if condition."
  let thenBranch ← branch
  let elseBranch ← optional .else branch
  pure (.ifElse condition thenBranch elseBranch)

def whileRest (inner body : Parse Node) : Parse Node := do
  discard <| expect .leftParen "Expect '(' after 'while'."
  let condition ← inner
  discard <| expect .rightParen "Expect ')' after condition."
  return .whileLoop condition (← body)

def printRest (inner : Parse Node) : Parse Node := do
  let value ← inner
  discard <| expect .semicolon "Expect ';' after value."
  pure (.print value)

def returnRest (inner : Parse Node) (keyword : Token) : Parse Node := do
  let value ← clause .semicolon inner
  discard <| expect .semicolon "Expect ';' after return value."
  pure (.giveBack keyword (value.getD .absent))

/-- The kinds of token that begin a statement other than an expression. -/
def leadsStatement (kind : TokenKind) : Bool :=
  kind = .for || kind = .if || kind = .print || kind = .return || kind = .while ||
    kind = .leftBrace

/-- The statement that the next token begins. The first clause of a `for` loop holds an `initial`
expression, all other places an `inner` one. -/
def statementFrom (initial inner body : Parse Node) (declaration : Parse (Option Node)) :
    Parse Node := do
  match ← accept leadsStatement with
  | some keyword =>
    match keyword.kind with
    | .for => forRest initial inner body
    | .if => ifRest inner body
    | .print => printRest inner
    | .return => returnRest inner keyword
    | .while => whileRest inner body
    | _ => return .block (← blockRest declaration)
  | none => expressionStatement inner

/-- The declaration or statement that the next token begins. -/
def declarationFrom (inner statement : Parse Node) (declaration : Parse (Option Node)) :
    Parse Node := do
  match ← accept fun kind => kind = .fun || kind = .var with
  | some keyword =>
    if keyword.kind = .fun then functionRest declaration else varDeclaration inner
  | none => statement

mutual

/-- A declaration or statement. One that does not parse is left out. Reporting that takes six steps,
which must be there. -/
def declaration : Nat → Parse (Option Node)
  | depth + 7 => recovering <|
    declarationFrom (expression (depth + 5)) (statement (depth + 6)) (declaration (depth + 4))
  | _ => tooDeep
termination_by structural depth => depth

/-- A statement. It takes a step, and another for what its first word starts. -/
def statement : Nat → Parse Node
  | depth + 3 =>
    statementFrom (expression depth) (expression (depth + 1)) (statement (depth + 1))
      (declaration (depth + 1))
  | _ => tooDeep
termination_by structural depth => depth

end

/-- All declarations of a program. -/
def program (depth : Nat) : Parse (List Node) := do
  return (← repeatWhile (anotherDeclaration atEnd (declaration depth)) []).reverse

end Parse

/-! ## Whole programs -/

/-- A parsed program: the statements that are well formed, and everything that was reported. -/
structure ParsedProgram where
  statements : List Node
  diagnostics : List Diagnostic

/-- Parses the tokens of a program. The rule for programs stops early only if not even one declaration
may be open, which is reported. -/
def parseTokens (limits : Limits) (tokens : List Token) (finish : Token) : ParsedProgram :=
  match Parse.program limits.parsing ⟨tokens, finish, []⟩ with
  | .ok statements cursor => ⟨statements, cursor.reported⟩
  | .error _ cursor => ⟨[], (cursor.report cursor.peek Parse.tooDeepMessage).reported⟩

/-- Scans and parses a program. -/
def parseSource (limits : Limits) (source : String) : ParsedProgram :=
  let scan := Scan.ofSource source
  let parsed := parseTokens limits scan.tokens scan.finish
  { parsed with diagnostics := scan.diagnostics ++ parsed.diagnostics }

/-- What parsing a lone expression gives: the expression if the tokens fit, how many tokens were
read, and everything that was reported. -/
structure ParsedExpression where
  expression : Option Node
  position : Nat
  diagnostics : List Diagnostic

/-- Scans a text and parses one expression at its start; `none` if it nests too deeply. -/
def parseExpression (limits : Limits) (source : String) : Option ParsedExpression :=
  let scan := Scan.ofSource source
  let outcome (expression : Option Node) (cursor : Cursor) : ParsedExpression :=
    ⟨expression, scan.tokens.length - cursor.rest.length, scan.diagnostics ++ cursor.reported⟩
  match Parse.expression limits.parsing ⟨scan.tokens, scan.finish, []⟩ with
  | .ok node cursor => some (outcome (some node) cursor)
  | .error .syntaxError cursor => some (outcome none cursor)
  | .error .tooDeep _ => none

end GameScript
