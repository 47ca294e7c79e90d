import GameScript.Limits
import GameScript.Tree.Defect

/-! Trees in parenthesized prefix form, which shows the grouping that the parser chose. -/

namespace GameScript.Node

/-- A constant of a program. -/
def literalText : Json → String
  | .null => "nil"
  | .bool value => if value then "true" else "false"
  | .number value => Decimal.text value
  | value => value.display

/-- A piece of output, which must be a text. -/
def pieceText : Json → Except Defect String
  | .string value => pure value
  | _ => throw .wrongShape

/-- A head and its parts in parentheses. -/
def parenthesized (head : Json) (parts : List Json) : Except Defect Json := do
  let pieces ← (head :: parts).mapM pieceText
  return .string ("(" ++ String.intercalate " " pieces ++ ")")

/-- A name as a part. -/
def namePart (name : Token) : Except Defect Json :=
  match name.lexeme with
  | .string value => pure (.string value)
  | lexeme => throw (.unprintable lexeme.typeName)

/-- The parameters of a function, in parentheses of their own. -/
def signature (params : List Token) : Except Defect Json := do
  let names ← params.mapM fun param => pieceText param.lexeme
  return .string ("(" ++ String.intercalate " " names ++ ")")

mutual

/-- A node in prefix form. That is a text, except that a lone name shows its lexeme, which in a tree
from a file may be any datum. -/
def render : Node → Except Defect Json
  | .literal value => pure (.string (literalText value))
  | .grouping inner => do parenthesized (.string "group") [← inner.render]
  | .unary operator right => do parenthesized operator.lexeme [← right.render]
  | .binary left operator right | .logical left operator right => do
    parenthesized operator.lexeme [← left.render, ← right.render]
  | .variable name => pure name.lexeme
  | .assign name value => do parenthesized (.string "=") [← namePart name, ← value.render]
  | .call callee _ arguments =>
    match arguments with
    | .sequence items => do
      parenthesized (.string "call") ((← callee.render) :: (← renderAll items))
    | _ => throw .wrongShape
  | .array _ elements =>
    match elements with
    | .sequence items => do parenthesized (.string "array") (← renderAll items)
    | _ => throw .wrongShape
  | .indexGet target _ index => do
    parenthesized (.string "index") [← target.render, ← index.render]
  | .indexSet target _ index value => do
    parenthesized (.string "index=") [← target.render, ← index.render, ← value.render]
  | .expression inner => do parenthesized (.string ";") [← inner.render]
  | .print inner => do parenthesized (.string "print") [← inner.render]
  | .var name initializer =>
    match initializer with
    | .absent => do parenthesized (.string "var") [← namePart name]
    | value => do parenthesized (.string "var") [← namePart name, ← value.render]
  | .block statements =>
    match statements with
    | .sequence items => do parenthesized (.string "block") (← renderAll items)
    | _ => throw .wrongShape
  | .ifElse condition thenBranch elseBranch =>
    match elseBranch with
    | .absent => do parenthesized (.string "if") [← condition.render, ← thenBranch.render]
    | branch => do
      parenthesized (.string "if-else")
        [← condition.render, ← thenBranch.render, ← branch.render]
  | .whileLoop condition body => do
    parenthesized (.string "while") [← condition.render, ← body.render]
  | .function name params body => do
    let params ← signature params
    match body with
    | .sequence items =>
      parenthesized (.string "fun") ((← namePart name) :: params :: (← renderAll items))
    | _ => throw .wrongShape
  | .giveBack _ value =>
    match value with
    | .absent => pure (.string "(return)")
    | value => do parenthesized (.string "return") [← value.render]
  | .absent => throw (.unprintable (typeName .absent))
  | .sequence items => throw (.unprintable (typeName (.sequence items)))
termination_by structural node => node

/-- Nodes in prefix form, one piece each. -/
def renderAll : List Node → Except Defect (List Json)
  | [] => pure []
  | node :: rest => return (← node.render) :: (← renderAll rest)
termination_by structural nodes => nodes

end

/-- A node in prefix form, unless it nests too deeply. Every node takes two steps. -/
def renderWithin (limits : Limits) (node : Node) : Except Defect Json :=
  if node.depth 2 0 ≤ limits.printing then node.render else throw .tooDeep

/-- Statements in prefix form, one text each. -/
def renderProgram (limits : Limits) (statements : List Node) : Except Defect (List String) := do
  (← statements.mapM (renderWithin limits)).mapM pieceText

end GameScript.Node
