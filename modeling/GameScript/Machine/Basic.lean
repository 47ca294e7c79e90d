import GameScript.Machine.Fault
import GameScript.Trace
import GameScript.Tree.Defect
import GameScript.Value.Text

/-! The state of a running program and the steps that change it. -/

namespace GameScript

/-- The state of a running program. -/
structure Machine where
  store : Store := .initial
  /-- Input not yet read. -/
  input : List Char := []
  /-- Everything printed. -/
  output : String := ""
  /-- The time that `clock` gives. Time does not pass as a program runs: every call gives this one. -/
  clock : Float := 1
  /-- Trace messages, oldest first. -/
  log : Array Trace.Entry := #[]

/-- Why a step does not finish. -/
inductive Stop where
  /-- An error of the program. Native functions do not know where they were called from. -/
  | fault (fault : Fault) (token : Option Token)
  /-- No room for another nested step. -/
  | overflow
  /-- A loop has gone round as often as is allowed. -/
  | endless
  /-- The tree is no program. -/
  | broken (defect : Defect)

/-- A step. It keeps the state it has reached when it stops. -/
abbrev Eval := EStateM Stop Machine

/-- How programs are run. -/
structure Settings where
  /-- How often a single loop may go round. -/
  rounds : Nat
  /-- How much is traced. At zero, messages are built but not kept; without a number they are not even
  built. -/
  tracing : Option Nat

/-- How a statement ends. -/
inductive Completion where
  | normal
  | returned (value : Value) (keyword : Token)

namespace Eval

/-! ## Stopping -/

/-- Stops with an error at a token. -/
def fault {α : Type} (fault : Fault) (token : Token) : Eval α := throw (.fault fault (some token))

/-- Stops with an error of a native function, which the call puts a token to. -/
def nativeFault {α : Type} (fault : Fault) : Eval α := throw (.fault fault none)

def overflow {α : Type} : Eval α := throw .overflow

def broken {α : Type} (defect : Defect) : Eval α := throw (.broken defect)

/-- The parts of a node that should be a sequence. -/
def parts (node : Node) : Eval (List Node) :=
  match node.items? with
  | some items => pure items
  | none => broken .wrongShape

/-! ## The store -/

/-- Runs an operation that creates something. -/
def create {α : Type} (operation : Store → α × Store) : Eval α :=
  modifyGet fun machine =>
    let (result, store) := operation machine.store
    (result, { machine with store })

def modifyStore (operation : Store → Store) : Eval Unit :=
  modify fun machine => { machine with store := operation machine.store }

/-- The name that a token stands for. -/
def nameOf (token : Token) : Eval Name :=
  match token.name? with
  | some name => pure name
  | none => broken .wrongShape

/-- Binds a name in a scope itself. -/
def define (scope : Nat) (token : Token) (value : Value) : Eval Unit := do
  let name ← nameOf token
  modifyStore (·.define scope name value)

/-- The innermost scope that binds a name. Every scope on the way takes a step. -/
def ownerOf (room scope : Nat) (token : Token) (name : Name) : Eval Nat := do
  match (← get).store.search room scope name with
  | .found owner => pure owner
  | .unbound => fault (.undefinedVariable token.text) token
  | .tooFar => overflow

/-- The value of a name, seen from a scope. -/
def lookup (room scope : Nat) (token : Token) : Eval Value := do
  let name ← nameOf token
  let owner ← ownerOf room scope token name
  return ((← get).store.own? owner name).getD .nil

/-- Rebinds a name where it is bound. -/
def rebind (room scope : Nat) (token : Token) (value : Value) : Eval Unit := do
  let name ← nameOf token
  let owner ← ownerOf room scope token name
  modifyStore (·.define owner name value)

/-! ## Text and tracing -/

/-- The text of a value, if there is room to build it. -/
def textOf (room : Nat) (value : Value) : Eval String := do
  match (← get).store.text? room value with
  | some text => pure text
  | none => overflow

theorem textOf_eq (room : Nat) (value : Value) (m : Machine) :
    textOf room value m = match m.store.text? room value with
      | some text => .ok text m
      | none => .error .overflow m := by
  change (match m.store.text? room value with
    | some text => (pure text : Eval String)
    | none => overflow) m = _
  cases m.store.text? room value <;> rfl

theorem textOf_bind {α : Type} (room : Nat) (value : Value) (f : String → Eval α) (m : Machine) :
    (textOf room value >>= f) m = match m.store.text? room value with
      | some text => f text m
      | none => .error .overflow m := by
  change EStateM.bind (textOf room value) f m = _
  rw [EStateM.bind, textOf_eq]
  cases m.store.text? room value <;> rfl

/-- Prints a line. -/
def printLine (text : String) : Eval Unit :=
  modify fun machine => { machine with output := machine.output ++ text ++ "\n" }

/-- Keeps a message of a level, if so much is traced. -/
def trace (settings : Settings) (level : Nat) (message : String) : Eval Unit :=
  match settings.tracing with
  | some verbosity =>
    if level ≤ verbosity then
      modify fun machine => { machine with log := machine.log.push ⟨.running, message⟩ }
    else pure ()
  | none => pure ()

/-- Tracing leaves all but the trace alone. -/
theorem trace_ok (settings : Settings) (level : Nat) (message : String) (m : Machine) :
    ∃ log, trace settings level message m = .ok () { m with log } := by
  unfold trace
  cases settings.tracing with
  | none => exact ⟨m.log, rfl⟩
  | some verbosity =>
    by_cases h : level ≤ verbosity
    · simp only [h, if_true]
      exact ⟨_, rfl⟩
    · simp only [h, if_false]
      exact ⟨m.log, rfl⟩

/-- Traces a value. Its text is built even if the message is not kept. -/
def traceValue (settings : Settings) (room level : Nat) (label : String) (value : Value) :
    Eval Unit :=
  match settings.tracing with
  | some _ => do trace settings level (label ++ (← textOf (room - 1) value))
  | none => pure ()

/-- Traces the value of an expression, at the highest level only. -/
def traceExpression (settings : Settings) (room : Nat) (node : Node) (value : Value) : Eval Unit :=
  match settings.tracing with
  | some verbosity =>
    if 4 ≤ verbosity then do
      trace settings 4 (node.typeName ++ " -> " ++ (← textOf (room - 1) value))
    else pure ()
  | none => pure ()

/-! ## Input -/

/-- The first line of a text with its line end, and the text after it. -/
def splitLine : List Char → List Char × List Char
  | [] => ([], [])
  | c :: rest =>
    if c = '\n' then ([c], rest)
    else
      let (line, after) := splitLine rest
      (c :: line, after)

/-- A line without the line ends after it. -/
def dropLineEnds (line : List Char) : List Char :=
  (line.reverse.dropWhile fun c => c = '\r' || c = '\n').reverse

/-- Reads a line of input, or gives nothing at its end. -/
def readLine : Eval (Option String) :=
  modifyGet fun machine =>
    if machine.input.isEmpty then (none, machine)
    else
      let (line, rest) := splitLine machine.input
      (some (String.ofList (dropLineEnds line)), { machine with input := rest })

end Eval

end GameScript
