import GameScript.Token.Basic

/-! Syntax trees.

One type holds expressions and statements, because a tree may also come from a file in which any
node stands anywhere. Nodes keep the tokens that errors are reported at. -/

namespace GameScript

/-- A node. A part that may be missing is `absent` when it is, and a list of parts is a `sequence`. -/
inductive Node where
  | literal (value : Json)
  | grouping (inner : Node)
  | unary (operator : Token) (right : Node)
  | binary (left : Node) (operator : Token) (right : Node)
  | logical (left : Node) (operator : Token) (right : Node)
  | variable (name : Token)
  | assign (name : Token) (value : Node)
  | call (callee : Node) (paren : Token) (arguments : Node)
  | array (bracket : Token) (elements : Node)
  | indexGet (target : Node) (bracket : Token) (index : Node)
  | indexSet (target : Node) (bracket : Token) (index value : Node)
  | expression (inner : Node)
  | print (inner : Node)
  | var (name : Token) (initializer : Node)
  | block (statements : Node)
  | ifElse (condition thenBranch elseBranch : Node)
  | whileLoop (condition body : Node)
  | function (name : Token) (params : List Token) (body : Node)
  | giveBack (keyword : Token) (value : Node)
  | absent
  | sequence (items : List Node)
  deriving Repr, Inhabited

namespace Node

/-- The name of a node's type, as files and messages write it. -/
def typeName : Node → String
  | .literal _ => "Literal"
  | .grouping _ => "Grouping"
  | .unary _ _ => "Unary"
  | .binary _ _ _ => "Binary"
  | .logical _ _ _ => "Logical"
  | .variable _ => "Variable"
  | .assign _ _ => "Assign"
  | .call _ _ _ => "Call"
  | .array _ _ => "ArrayLiteral"
  | .indexGet _ _ _ => "IndexGet"
  | .indexSet _ _ _ _ => "IndexSet"
  | .expression _ => "Expression"
  | .print _ => "Print"
  | .var _ _ => "Var"
  | .block _ => "Block"
  | .ifElse _ _ _ => "If"
  | .whileLoop _ _ => "While"
  | .function _ _ _ => "Function"
  | .giveBack _ _ => "Return"
  | .absent => "NoneType"
  | .sequence _ => "list"

def isAbsent : Node → Bool
  | .absent => true
  | _ => false

/-- The parts of a sequence; other nodes are no list of parts. -/
def items? : Node → Option (List Node)
  | .sequence items => some items
  | _ => none

mutual

/-- The steps that a walk down the longest path of a tree has open, if a node takes `own` of them and
a sequence takes `list`. -/
def depth (own list : Nat) : Node → Nat
  | .literal _ | .variable _ | .absent => own
  | .grouping inner | .expression inner | .print inner => inner.depth own list + own
  | .unary _ right => right.depth own list + own
  | .binary left _ right | .logical left _ right =>
    max (left.depth own list) (right.depth own list) + own
  | .assign _ value | .var _ value | .giveBack _ value => value.depth own list + own
  | .call callee _ arguments => max (callee.depth own list) (arguments.depth own list) + own
  | .array _ elements => elements.depth own list + own
  | .indexGet target _ index => max (target.depth own list) (index.depth own list) + own
  | .indexSet target _ index value =>
    max (target.depth own list) (max (index.depth own list) (value.depth own list)) + own
  | .block statements => statements.depth own list + own
  | .ifElse condition thenBranch elseBranch =>
    max (condition.depth own list) (max (thenBranch.depth own list) (elseBranch.depth own list)) + own
  | .whileLoop condition body => max (condition.depth own list) (body.depth own list) + own
  | .function _ _ body => body.depth own list + own
  | .sequence items => depthOfAll own list items + list
termination_by structural node => node

/-- The greatest depth in a list. -/
def depthOfAll (own list : Nat) : List Node → Nat
  | [] => 0
  | node :: rest => max (node.depth own list) (depthOfAll own list rest)
termination_by structural nodes => nodes

end

end Node

end GameScript
