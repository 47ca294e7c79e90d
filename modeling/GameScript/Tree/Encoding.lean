import GameScript.Limits
import GameScript.Tree.Defect

/-! Trees as data, and back.

Every node is an object whose `type` names it. Reading takes more than writing gives: members may
come in any order, unknown ones are skipped, and optional ones may be missing. -/

namespace GameScript

/-! ## Tokens -/

namespace Token

/-- A token as an object. -/
def toJson (token : Token) : Json :=
  .object [("kind", .string token.kind.name), ("lexeme", token.lexeme),
    ("literal", token.literal), ("line", token.line)]

/-- The kind that a datum names. -/
def kindOf : Json → Except Defect TokenKind
  | .string name =>
    match TokenKind.ofName? name with
    | some kind => pure kind
    | none => throw (.missingKey (Text.quoted name))
  | .array _ | .object _ => throw .wrongShape
  | datum => throw (.missingKey datum.display)

/-- A member that must be there. -/
def member (members : Fields Json) (key : String) : Except Defect Json :=
  match Fields.get? members key with
  | some datum => pure datum
  | none => throw (.missingKey (Text.quoted key))

/-- The token of an object. All but the kind is kept as it is, and the literal may be missing. -/
def ofJson : Json → Except Defect Token
  | .object members => do
    let kind ← kindOf (← member members "kind")
    let lexeme ← member members "lexeme"
    let literal := (Fields.get? members "literal").getD .null
    let line ← member members "line"
    pure ⟨kind, lexeme, literal, line⟩
  | _ => throw .wrongShape

end Token

namespace Node

/-! ## Writing -/

mutual

/-- A node as data. -/
def toJson : Node → Json
  | .literal value => .object [("type", .string "Literal"), ("value", value)]
  | .grouping inner => .object [("type", .string "Grouping"), ("expression", inner.toJson)]
  | .unary operator right =>
    .object [("type", .string "Unary"), ("operator", operator.toJson), ("right", right.toJson)]
  | .binary left operator right =>
    .object [("type", .string "Binary"), ("left", left.toJson), ("operator", operator.toJson),
      ("right", right.toJson)]
  | .logical left operator right =>
    .object [("type", .string "Logical"), ("left", left.toJson), ("operator", operator.toJson),
      ("right", right.toJson)]
  | .variable name => .object [("type", .string "Variable"), ("name", name.toJson)]
  | .assign name value =>
    .object [("type", .string "Assign"), ("name", name.toJson), ("value", value.toJson)]
  | .call callee paren arguments =>
    .object [("type", .string "Call"), ("callee", callee.toJson), ("paren", paren.toJson),
      ("arguments", arguments.toJson)]
  | .array bracket elements =>
    .object [("type", .string "ArrayLiteral"), ("bracket", bracket.toJson),
      ("elements", elements.toJson)]
  | .indexGet target bracket index =>
    .object [("type", .string "IndexGet"), ("target", target.toJson), ("bracket", bracket.toJson),
      ("index", index.toJson)]
  | .indexSet target bracket index value =>
    .object [("type", .string "IndexSet"), ("target", target.toJson), ("bracket", bracket.toJson),
      ("index", index.toJson), ("value", value.toJson)]
  | .expression inner => .object [("type", .string "Expression"), ("expression", inner.toJson)]
  | .print inner => .object [("type", .string "Print"), ("expression", inner.toJson)]
  | .var name initializer =>
    .object [("type", .string "Var"), ("name", name.toJson), ("initializer", initializer.toJson)]
  | .block statements => .object [("type", .string "Block"), ("statements", statements.toJson)]
  | .ifElse condition thenBranch elseBranch =>
    .object [("type", .string "If"), ("condition", condition.toJson),
      ("then_branch", thenBranch.toJson), ("else_branch", elseBranch.toJson)]
  | .whileLoop condition body =>
    .object [("type", .string "While"), ("condition", condition.toJson), ("body", body.toJson)]
  | .function name params body =>
    .object [("type", .string "Function"), ("name", name.toJson),
      ("params", .array (params.map Token.toJson)), ("body", body.toJson)]
  | .giveBack keyword value =>
    .object [("type", .string "Return"), ("keyword", keyword.toJson), ("value", value.toJson)]
  | .absent => .null
  | .sequence items => .array (toJsons items)
termination_by structural node => node

def toJsons : List Node → List Json
  | [] => []
  | node :: rest => node.toJson :: toJsons rest
termination_by structural nodes => nodes

end

/-- May a tree be written as data or read from it? Every node takes one step and every sequence two. -/
def isWithin (limits : Limits) (node : Node) : Bool := node.depth 1 2 ≤ limits.encoding

/-- A node as data, unless it nests too deeply. -/
def toJsonWithin (limits : Limits) (node : Node) : Except Defect Json :=
  if node.isWithin limits then pure node.toJson else throw .tooDeep

/-- A program as data. -/
def programToJson (limits : Limits) (statements : List Node) : Except Defect Json := do
  return .object [("type", .string "Program"),
    ("statements", ← toJsonWithin limits (.sequence statements))]

/-! ## Reading -/

/-- The value of a constant. Data does not tell whole numbers from others, so an integer becomes a
number. -/
def literalValue : Json → Except Defect Json
  | .int n =>
    let x := Decimal.ofDigits (n < 0) n.natAbs 0
    if x.isInf then throw .tooLarge else pure (.number x)
  | value => pure value

/-- The tokens of a function's parameters. An empty text or object lists none. -/
def paramsOf : Json → Except Defect (List Token)
  | .array items => items.mapM Token.ofJson
  | .string "" | .object [] => pure []
  | _ => throw .wrongShape

/-- What reading gives for each member of an object, taken as a node. -/
abbrev Parts := Fields (Except Defect Node)

/-- A part that must be there. -/
def part (parts : Parts) (key : String) : Except Defect Node :=
  match Fields.get? parts key with
  | some result => result
  | none => throw (.missingKey (Text.quoted key))

/-- A part that may be missing. -/
def partOrAbsent (parts : Parts) (key : String) : Except Defect Node :=
  (Fields.get? parts key).getD (pure .absent)

/-- The token in a member that must be there. -/
def tokenAt (members : Fields Json) (key : String) : Except Defect Token := do
  Token.ofJson (← Token.member members key)

/-- The node of an object, from its members and from what reading gave for each of them. Members are
asked for in a fixed order, and the first defect counts. -/
def ofObject (members : Fields Json) (parts : Parts) : Except Defect Node :=
  match (Fields.get? members "type").getD .null with
  | .string "Literal" => return .literal (← literalValue (← Token.member members "value"))
  | .string "Grouping" => return .grouping (← part parts "expression")
  | .string "Unary" => return .unary (← tokenAt members "operator") (← part parts "right")
  | .string "Binary" =>
    return .binary (← part parts "left") (← tokenAt members "operator") (← part parts "right")
  | .string "Logical" =>
    return .logical (← part parts "left") (← tokenAt members "operator") (← part parts "right")
  | .string "Variable" => return .variable (← tokenAt members "name")
  | .string "Assign" => return .assign (← tokenAt members "name") (← part parts "value")
  | .string "Call" =>
    return .call (← part parts "callee") (← tokenAt members "paren") (← part parts "arguments")
  | .string "ArrayLiteral" =>
    return .array (← tokenAt members "bracket") (← part parts "elements")
  | .string "IndexGet" =>
    return .indexGet (← part parts "target") (← tokenAt members "bracket") (← part parts "index")
  | .string "IndexSet" =>
    return .indexSet (← part parts "target") (← tokenAt members "bracket") (← part parts "index")
      (← part parts "value")
  | .string "Expression" => return .expression (← part parts "expression")
  | .string "Print" => return .print (← part parts "expression")
  | .string "Var" => return .var (← tokenAt members "name") (← partOrAbsent parts "initializer")
  | .string "Block" => return .block (← part parts "statements")
  | .string "If" =>
    return .ifElse (← part parts "condition") (← part parts "then_branch")
      (← partOrAbsent parts "else_branch")
  | .string "While" => return .whileLoop (← part parts "condition") (← part parts "body")
  | .string "Function" =>
    return .function (← tokenAt members "name") (← paramsOf (← Token.member members "params"))
      (← part parts "body")
  | .string "Return" => return .giveBack (← tokenAt members "keyword") (← partOrAbsent parts "value")
  | type => throw (.unknownType type.displayBare)

mutual

/-- The node of a datum. Nothing is an absent node, and an array is a sequence. -/
def ofJson : Json → Except Defect Node
  | .null => pure .absent
  | .array items => return .sequence (← ofJsons items)
  | .object members => ofObject members (partsOf members)
  | _ => throw .invalidObject
termination_by structural datum => datum

def ofJsons : List Json → Except Defect (List Node)
  | [] => pure []
  | item :: rest => return (← ofJson item) :: (← ofJsons rest)
termination_by structural items => items

def partsOf : List (String × Json) → Parts
  | [] => []
  | (key, value) :: rest => (key, ofJson value) :: partsOf rest
termination_by structural members => members

end

/-- The node of a datum, unless it nests too deeply. -/
def ofJsonWithin (limits : Limits) (datum : Json) : Except Defect Node := do
  let node ← ofJson datum
  if node.isWithin limits then pure node else throw .tooDeep

/-- The statements of a program, as one node. -/
def programOfJson (limits : Limits) : Json → Except Defect Node
  | .object members =>
    match Fields.get? members "type" with
    | some (.string "Program") => do ofJsonWithin limits (← Token.member members "statements")
    | _ => throw .notProgram
  | _ => throw .notObject

end Node

end GameScript
