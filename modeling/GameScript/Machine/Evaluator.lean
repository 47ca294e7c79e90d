import GameScript.Machine.Operator

/-! Evaluation of expressions and execution of statements.

Every step takes how much room is left for steps nested in it; a program that needs more stops with
an overflow. An expression takes two steps and one more around a list of parts, a statement one, a
block two and a call three. Only a loop can then go on without end, so each loop's rounds are bounded
too. -/

namespace GameScript.Eval

/-- Runs statements until one returns. -/
def runAll (execute : Node → Eval Completion) : List Node → Eval Completion
  | [] => pure .normal
  | node :: rest => do
    match ← execute node with
    | .normal => runAll execute rest
    | .returned value keyword => pure (.returned value keyword)

/-- Goes round while a condition holds, until the body returns. -/
def loop (condition : Eval Bool) (body : Eval Completion) : Nat → Eval Completion
  | 0 => throw .endless
  | rounds + 1 => do
    if ← condition then
      match ← body with
      | .normal => loop condition body rounds
      | .returned value keyword => pure (.returned value keyword)
    else pure .normal

/-- The values of expressions, from left to right. -/
def evaluateAll (evaluate : Node → Eval Value) : List Node → Eval (List Value)
  | [] => pure []
  | node :: rest => do
    let value ← evaluate node
    return value :: (← evaluateAll evaluate rest)

/-- Binds parameters to arguments in a scope. -/
def bindAll (scope : Nat) : List Token → List Value → Eval Unit
  | param :: params, argument :: arguments => do
    define scope param argument
    bindAll scope params arguments
  | _, _ => pure ()

mutual

/-- The value of an expression, seen from a scope. -/
def evaluate (settings : Settings) (room : Nat) (node : Node) (scope : Nat) : Eval Value :=
  match room with
  | 0 => overflow
  | room + 1 => do
    let value ← evaluateNode settings room node scope
    traceExpression settings room node value
    pure value
termination_by structural room

def evaluateNode (settings : Settings) (room : Nat) (node : Node) (scope : Nat) : Eval Value :=
  match room with
  | room + 2 =>
    match node with
    | .literal value => pure (Value.ofJson value)
    | .grouping inner => evaluate settings (room + 1) inner scope
    | .variable name => lookup (room + 1) scope name
    | .assign name value => do
      let value ← evaluate settings (room + 1) value scope
      rebind (room + 1) scope name value
      pure value
    | .unary operator right => do
      applyUnary operator (← evaluate settings (room + 1) right scope)
    | .binary left operator right => do
      let a ← evaluate settings (room + 1) left scope
      let b ← evaluate settings (room + 1) right scope
      applyBinary (room + 1) operator a b
    | .logical left operator right => do
      let a ← evaluate settings (room + 1) left scope
      let decided := if operator.kind = .or then a.truthy else !a.truthy
      if decided then pure a else evaluate settings (room + 1) right scope
    | .call callee paren arguments => do
      let callee ← evaluate settings (room + 1) callee scope
      let arguments ← parts arguments
      let values ← evaluateAll (fun node => evaluate settings room node scope) arguments
      call settings (room + 1) callee values paren
    | .array _ elements => do
      let elements ← parts elements
      let values ← evaluateAll (fun node => evaluate settings room node scope) elements
      create (·.newArray values.toArray)
    | .indexGet target bracket index => do
      let container ← evaluate settings (room + 1) target scope
      let index ← evaluate settings (room + 1) index scope
      elementAt (room + 1) container index bracket
    | .indexSet target bracket index value => do
      let (container, place) ← locate settings (room + 1) target scope
      let index ← evaluate settings (room + 1) index scope
      let value ← evaluate settings (room + 1) value scope
      storeElement (room + 1) container index value bracket place
      pure value
    | node => broken (.unknownExpression node.typeName)
  | _ => overflow
termination_by structural room

/-- The value of an expression together with the place that it was read from. -/
def locate (settings : Settings) (room : Nat) (node : Node) (scope : Nat) : Eval (Value × Place) :=
  match room with
  | 0 => overflow
  | room + 1 =>
    match node with
    | .variable name => return (← lookup room scope name, .variable scope name)
    | .indexGet target bracket index => do
      let (container, outer) ← locate settings room target scope
      let index ← evaluate settings room index scope
      let value ← elementAt room container index bracket
      pure (value, .element container index bracket outer)
    | .grouping inner => locate settings room inner scope
    | node => return (← evaluate settings room node scope, .nowhere)
termination_by structural room

/-- Calls a value with arguments. -/
def call (settings : Settings) (room : Nat) (callee : Value) (arguments : List Value)
    (paren : Token) : Eval Value :=
  match room with
  | room + 3 =>
    match callee with
    | .native which => do
      if arguments.length ≠ which.arity then
        fault (.arityMismatch which.arity arguments.length) paren
      trace settings 2 ("call <native fn " ++ which.name ++ "> with " ++
        Decimal.integerText arguments.length ++ " arguments")
      atCall paren (callNative room which arguments)
    | .function place => do
      match (← get).store.closures[place]? with
      | none => fault (.notCallable callee.tag) paren
      | some closure =>
        if arguments.length ≠ closure.params.length then
          fault (.arityMismatch closure.params.length arguments.length) paren
        trace settings 2 ("call <fn " ++ closure.name.text ++ "> with " ++
          Decimal.integerText arguments.length ++ " arguments")
        atCall paren do
          let scope ← create (·.newScope (some closure.scope))
          bindAll scope closure.params arguments
          let body ← parts closure.body
          match ← runAll (fun node => execute settings room node scope) body with
          | .normal => pure .nil
          | .returned value _ => pure value
    | callee => fault (.notCallable callee.tag) paren
  | _ => overflow
termination_by structural room

/-- Executes a statement in a scope. -/
def execute (settings : Settings) (room : Nat) (node : Node) (scope : Nat) : Eval Completion :=
  match room with
  | room + 2 =>
    match node with
    | .expression inner => do
      discard <| evaluate settings (room + 1) inner scope
      pure .normal
    | .print inner => do
      let value ← evaluate settings (room + 1) inner scope
      printLine (← textOf room value)
      pure .normal
    | .var name initializer => do
      let value ←
        if initializer.isAbsent then pure .nil else evaluate settings (room + 1) initializer scope
      define scope name value
      traceValue settings (room + 1) 2 ("declare " ++ name.text ++ " = ") value
      pure .normal
    | .block statements => do
      let statements ← parts statements
      let inner ← create (·.newScope (some scope))
      runAll (fun node => execute settings room node inner) statements
    | .ifElse condition thenBranch elseBranch => do
      let value ← evaluate settings (room + 1) condition scope
      traceValue settings (room + 1) 3 "if condition " value
      if value.truthy then execute settings (room + 1) thenBranch scope
      else if elseBranch.isAbsent then pure .normal
      else execute settings (room + 1) elseBranch scope
    | .whileLoop condition body =>
      let holds : Eval Bool := do
        let value ← evaluate settings (room + 1) condition scope
        traceValue settings (room + 1) 3 "while condition " value
        pure value.truthy
      loop holds (execute settings (room + 1) body scope) settings.rounds
    | .function name params body => do
      let function ← create (·.newClosure ⟨name, params, body, scope⟩)
      define scope name function
      trace settings 2 ("define function " ++ name.text)
      pure .normal
    | .giveBack keyword value => do
      let value ← if value.isAbsent then pure .nil else evaluate settings (room + 1) value scope
      pure (.returned value keyword)
    | node => broken (.unknownStatement node.typeName)
  | _ => overflow
termination_by structural room

end

/-- Runs statements in the outermost scope. None of them may return. -/
def runProgram (settings : Settings) (room : Nat) : List Node → Eval Unit
  | [] => pure ()
  | node :: rest => do
    match ← execute settings room node Store.globals with
    | .normal => runProgram settings room rest
    | .returned _ keyword => fault .returnOutsideFunction keyword

end GameScript.Eval
