import GameScript.Token.Name
import GameScript.Tree.Basic
import GameScript.Value.Basic

/-! Scopes, arrays and functions of a running program.

Each is known by its number, in order of creation, and nothing is ever taken away. A scope's parent
is older than the scope, so the way outward ends. -/

namespace GameScript

/-- A scope: the names it binds, and the scope around it. -/
structure Scope where
  parent : Option Nat
  names : Fields Value Name := []

/-- A function: its declaration and the scope that it was declared in. -/
structure Closure where
  name : Token
  params : List Token
  body : Node
  scope : Nat

/-- Everything that a program has created. -/
structure Store where
  scopes : Array Scope := #[]
  arrays : Array (Array Value) := #[]
  closures : Array Closure := #[]

namespace Store

/-! ## Scopes -/

/-- Creates a scope; its number is the number of scopes before. -/
def newScope (store : Store) (parent : Option Nat) : Nat × Store :=
  (store.scopes.size, { store with scopes := store.scopes.push { parent } })

/-- Does a scope itself bind a name? -/
def owns (store : Store) (name : Name) (scope : Nat) : Bool :=
  match store.scopes[scope]? with
  | some scope => Fields.has scope.names name
  | none => false

/-- A scope and those around it, innermost first, at most `fuel` of them. -/
def chainWithin (store : Store) : Nat → Nat → List Nat
  | 0, _ => []
  | fuel + 1, scope =>
    scope :: match store.scopes[scope]? with
      | some { parent := some outer, .. } => chainWithin store fuel outer
      | _ => []

/-- A scope and those around it, innermost first. Parents are older, so there are at most as many as
scopes up to this one. -/
def chain (store : Store) (scope : Nat) : List Nat := chainWithin store (scope + 1) scope

/-- What looking for a name finds. -/
inductive Search where
  | found (scope : Nat)
  | unbound
  /-- More scopes would have to be passed than are allowed. -/
  | tooFar
  deriving Repr, DecidableEq

/-- Looks for the innermost scope that binds a name, among at most `room` scopes. -/
def search (store : Store) (room scope : Nat) (name : Name) : Search :=
  let chain := store.chainWithin room scope
  match chain.find? (store.owns name) with
  | some owner => .found owner
  | none => if chain.length < room then .unbound else .tooFar

/-- The innermost scope that binds a name. -/
def resolve? (store : Store) (scope : Nat) (name : Name) : Option Nat :=
  (store.chain scope).find? (store.owns name)

def contains (store : Store) (scope : Nat) (name : Name) : Bool :=
  (store.resolve? scope name).isSome

/-- The value that a scope itself binds a name to. -/
def own? (store : Store) (scope : Nat) (name : Name) : Option Value := do
  let scope ← store.scopes[scope]?
  Fields.get? scope.names name

/-- The value of a name, seen from a scope. -/
def get? (store : Store) (scope : Nat) (name : Name) : Option Value := do
  store.own? (← store.resolve? scope name) name

/-- Binds a name in a scope itself, whatever the scopes around it bind. -/
def define (store : Store) (scope : Nat) (name : Name) (value : Value) : Store :=
  { store with
    scopes := store.scopes.modify scope fun s => { s with names := Fields.put s.names name value } }

/-- Rebinds a name where it is bound; `none` if it is not. -/
def assign? (store : Store) (scope : Nat) (name : Name) (value : Value) : Option Store :=
  (store.resolve? scope name).map fun owner => store.define owner name value

/-! ## Arrays -/

/-- Creates an array. -/
def newArray (store : Store) (elements : Array Value) : Value × Store :=
  (.array store.arrays.size, { store with arrays := store.arrays.push elements })

/-- The elements of an array. -/
def elements (store : Store) (array : Nat) : Array Value := store.arrays[array]?.getD #[]

/-- Replaces an element. -/
def setElement (store : Store) (array index : Nat) (value : Value) : Store :=
  { store with arrays := store.arrays.modify array (·.setIfInBounds index value) }

/-- Adds an element at the end. -/
def pushElement (store : Store) (array : Nat) (value : Value) : Store :=
  { store with arrays := store.arrays.modify array (·.push value) }

/-! ## Functions -/

/-- Creates a function. -/
def newClosure (store : Store) (closure : Closure) : Value × Store :=
  (.function store.closures.size, { store with closures := store.closures.push closure })

/-! ## The start -/

/-- The number of the outermost scope. -/
def globals : Nat := 0

/-- A store with the outermost scope, in which the native functions are bound. -/
def initial : Store :=
  Native.all.foldl (fun store native => store.define globals (.text native.name) (.native native))
    (Store.newScope {} none).2

end Store

end GameScript
