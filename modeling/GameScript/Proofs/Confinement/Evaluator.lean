import GameScript.Machine.Evaluator
import GameScript.Proofs.Confinement.Store
import GameScript.Proofs.Steps

/-! # Every step keeps to its scope

`Confined` says of a step that the store grows, whether the step ends or stops, and which scopes may
gain names. An expression gains none. A statement gains names in its own scope only, and only those that
it declares there: blocks and calls open scopes of their own. This holds in every state and of every
tree, also of trees that are no programs. -/

namespace GameScript

/-- The names that a statement declares in its own scope: not those in blocks or functions inside. -/
def Node.declared : Node → List Token
  | .var name _ | .function name _ _ => [name]
  | .ifElse _ thenBranch elseBranch => thenBranch.declared ++ elseBranch.declared
  | .whileLoop _ body => body.declared
  | _ => []

/-- One scope gains what a statement declares. -/
def Gain.declared (scope : Nat) (node : Node) : Gain := fun i name =>
  i = scope ∧ ∃ token ∈ node.declared, token.name? = some name

namespace Eval

variable {α β : Type} {gain : Gain}

/-- The machine that a step leaves, whether it ends or stops. -/
def after (p : Eval α) (m : Machine) : Machine :=
  match p m with
  | .ok _ m' | .error _ m' => m'

/-- A step under which the store grows and scopes gain no other names. -/
structure Confined (gain : Gain) (p : Eval α) : Prop where
  grows : ∀ m : Machine, m.store.Grows gain (after p m).store

namespace Confined

variable {p : Eval α}

theorem mono {gain' : Gain} (h : Confined gain p) (hgain : ∀ i name, gain i name → gain' i name) :
    Confined gain' p := ⟨fun m => (h.grows m).mono hgain⟩

/-- A step that gains nothing gains no more than may be gained. -/
theorem of_nothing (h : Confined .nothing p) : Confined gain p := h.mono nofun

theorem pure (a : α) : Confined gain (pure a) := ⟨fun m => .refl m.store⟩

theorem stop (s : Stop) : Confined gain (throw s : Eval α) := ⟨fun m => .refl m.store⟩

/-- The second of two steps starts where the first one ends. -/
theorem bindFrom {f : α → Eval β} (hp : Confined gain p)
    (hf : ∀ {m a m'}, p m = .ok a m' → m'.store.Grows gain (after (f a) m').store) :
    Confined gain (p >>= f) := by
  refine ⟨fun m => ?_⟩
  have hgrows := hp.grows m
  unfold after at hgrows ⊢
  cases hr : p m with
  | ok a m' =>
    rw [hr] at hgrows
    rw [bind_eq_of_ok hr]
    exact hgrows.trans (hf hr) (fun _ _ h => h) fun _ _ _ h => h
  | error s m' =>
    rw [hr] at hgrows
    rw [bind_eq_of_error hr]
    exact hgrows

theorem bind {f : α → Eval β} (hp : Confined gain p) (hf : ∀ a, Confined gain (f a)) :
    Confined gain (p >>= f) := hp.bindFrom fun {_ a m'} _ => (hf a).grows m'

theorem get {f : Machine → Eval β} (hf : ∀ m, Confined gain (f m)) :
    Confined gain ((get : Eval Machine) >>= f) := ⟨fun m => (hf m).grows m⟩

theorem ite {c : Prop} [Decidable c] {q : Eval α} (hp : Confined gain p) (hq : Confined gain q) :
    Confined gain (if c then p else q) := by
  split
  · exact hp
  · exact hq

theorem discard (hp : Confined gain p) : Confined gain (Functor.discard p) :=
  hp.bind fun _ => pure ()

/-- A change of the machine that leaves its store alone. -/
theorem modifyGet {f : Machine → α × Machine} (h : ∀ m, (f m).2.store = m.store) :
    Confined gain (modifyGet f : Eval α) := by
  refine ⟨fun m => ?_⟩
  show m.store.Grows gain (f m).2.store
  rw [h m]
  exact .refl _

theorem modifyStore {operation : Store → Store} (h : ∀ s : Store, s.Grows gain (operation s)) :
    Confined gain (modifyStore operation) := ⟨fun m => h m.store⟩

theorem create {operation : Store → α × Store} (h : ∀ s : Store, s.Grows gain (operation s).2) :
    Confined gain (create operation) := ⟨fun m => h m.store⟩

/-- What a new scope gains is nothing to those that were there. -/
theorem inScope {parent : Option Nat} {f : Nat → Eval β} (hf : ∀ scope, Confined (.only scope) (f scope)) :
    Confined gain (Eval.create (·.newScope parent) >>= f) := by
  refine ⟨fun m => ?_⟩
  have opened : m.store.Grows gain (m.store.newScope parent).2 := .newScope m.store parent
  have grown := (hf m.store.scopes.size).grows { m with store := (m.store.newScope parent).2 }
  refine opened.trans grown (fun _ _ h => h) fun i name hi h => ?_
  exact absurd h (Nat.ne_of_lt hi)

/-! ## Text and streams -/

theorem textOf (room : Nat) (value : Value) : Confined gain (textOf room value) := by
  refine get fun m => ?_
  split
  · exact pure _
  · exact stop _

theorem printLine (text : String) : Confined gain (printLine text) := modifyGet fun _ => rfl

theorem trace (settings : Settings) (level : Nat) (message : String) :
    Confined gain (trace settings level message) := by
  unfold Eval.trace
  split
  · exact ite (modifyGet fun _ => rfl) (pure _)
  · exact pure _

theorem traceValue (settings : Settings) (room level : Nat) (label : String) (value : Value) :
    Confined gain (traceValue settings room level label value) := by
  unfold Eval.traceValue
  split
  · exact (textOf _ _).bind fun _ => trace _ _ _
  · exact pure _

theorem traceExpression (settings : Settings) (room : Nat) (node : Node) (value : Value) :
    Confined gain (traceExpression settings room node value) := by
  unfold Eval.traceExpression
  split
  · exact ite ((textOf _ _).bind fun _ => trace _ _ _) (pure _)
  · exact pure _

theorem readLine : Confined gain readLine := by
  refine modifyGet fun m => ?_
  split <;> rfl

/-! ## Names -/

theorem nameOf (token : Token) : Confined gain (nameOf token) := by
  unfold Eval.nameOf
  split
  · exact pure _
  · exact stop _

/-- A declaration binds its name in the scope that it stands in. -/
theorem define {scope : Nat} {token : Token} (h : ∀ name, token.name? = some name → gain scope name)
    (value : Value) : Confined gain (define scope token value) := by
  refine (nameOf token).bindFrom fun {m name m'} hname => ?_
  have hn : token.name? = some name := by
    unfold Eval.nameOf at hname
    cases hn : token.name? with
    | some name =>
      rw [hn] at hname
      rw [(pure_ok hname).1]
    | none =>
      rw [hn] at hname
      cases hname
  exact .define m'.store value (.inr (h name hn))

theorem ownerOf (room scope : Nat) (token : Token) (name : Name) :
    Confined gain (ownerOf room scope token name) := by
  refine get fun m => ?_
  split
  · exact pure _
  · exact stop _
  · exact stop _

theorem lookup (room scope : Nat) (token : Token) : Confined gain (lookup room scope token) :=
  (nameOf _).bind fun _ => (ownerOf _ _ _ _).bind fun _ => get fun _ => pure _

/-- A name is bound again where it was found, so no scope gains it. -/
theorem rebind (room scope : Nat) (token : Token) (value : Value) :
    Confined gain (rebind room scope token value) := by
  refine (nameOf token).bind fun name => (ownerOf room scope token name).bindFrom fun {m owner m'} h => ?_
  have found : m'.store.owns name owner = true := by
    unfold Eval.ownerOf at h
    rw [get_bind] at h
    cases hsearch : m.store.search room scope name with
    | found place =>
      rw [hsearch] at h
      obtain ⟨rfl, rfl⟩ := pure_ok h
      exact Store.search_found hsearch
    | unbound =>
      rw [hsearch] at h
      cases h
    | tooFar =>
      rw [hsearch] at h
      cases h
  exact .define m'.store value (.inl found)

/-! ## Operators -/

theorem applyUnary (operator : Token) (operand : Value) : Confined gain (applyUnary operator operand) := by
  unfold Eval.applyUnary
  split
  · exact pure _
  · split
    · exact pure _
    · exact stop _
  · exact stop _

theorem add (room : Nat) (operator : Token) (a b : Value) : Confined gain (add room operator a b) := by
  unfold Eval.add
  split
  · exact pure _
  · exact pure _
  · exact (textOf _ _).bind fun _ => pure _
  · exact (textOf _ _).bind fun _ => pure _
  · exact stop _

theorem areEqual (room : Nat) (a b : Value) : Confined gain (areEqual room a b) := by
  refine get fun m => ?_
  split
  · exact pure _
  · exact stop _

theorem arithmetic (operator : Token) (x y : Float) : Confined gain (arithmetic operator x y) := by
  have divide (operation : Float → Float → Float) : Confined gain (divide operation x y) :=
    ite (stop _) (pure _)
  unfold Eval.arithmetic
  split
  · exact pure _
  · exact pure _
  · exact ite (stop _) (divide _)
  · exact ite (stop _) (divide _)
  · exact pure _
  · exact pure _
  · exact pure _
  · exact pure _
  · exact stop _

theorem applyBinary (room : Nat) (operator : Token) (a b : Value) :
    Confined gain (applyBinary room operator a b) := by
  unfold Eval.applyBinary
  split
  · exact (areEqual _ _ _).bind fun _ => pure _
  · exact (areEqual _ _ _).bind fun _ => pure _
  · exact add _ _ _ _
  · split
    · exact arithmetic _ _ _
    · exact stop _

/-! ## Indexing -/

theorem position (room : Nat) (index : Value) (length : Nat) (bracket : Token) :
    Confined gain (position room index length bracket) := by
  unfold Eval.position
  dsimp only
  split
  · exact (textOf _ _).bind fun _ => stop _
  · exact ite (pure _) (stop _)

theorem itemAt (items : Nat → Option α) (i : Int) : Confined gain (itemAt items i) := by
  unfold Eval.itemAt
  split
  · split
    · exact pure _
    · exact stop _
  · exact stop _

theorem elementAt (room : Nat) (container index : Value) (bracket : Token) :
    Confined gain (elementAt room container index bracket) := by
  unfold Eval.elementAt
  split
  · exact get fun _ => (position _ _ _ _).bind fun _ => itemAt _ _
  · exact (position _ _ _ _).bind fun _ => (itemAt _ _).bind fun _ => pure _
  · exact stop _

theorem writeElement (room : Nat) (container index value : Value) (bracket : Token)
    {replace : Option (Value → Eval Unit)} (hr : ∀ f ∈ replace, ∀ value, Confined gain (f value)) :
    Confined gain (writeElement room container index value bracket replace) := by
  unfold Eval.writeElement
  split
  · refine get fun _ => (position _ _ _ _).bind fun _ => (itemAt _ _).discard.bind fun _ => ?_
    exact modifyStore fun s => .setElement s _ _ _
  · refine (position _ _ _ _).bind fun _ => ?_
    split
    · exact hr _ rfl _
    · exact stop _
    · exact stop _
  · exact stop _

theorem replacer (place : Place) (room : Nat) :
    ∀ f ∈ place.replacer room, ∀ value, Confined gain (f value) := by
  induction place generalizing room with
  | nowhere => nofun
  | «variable» scope name =>
    intro _ h value
    obtain ⟨⟩ := h
    exact rebind _ _ _ _
  | element container index bracket outer ih =>
    intro _ h value
    obtain ⟨⟩ := h
    exact ite (stop _) (writeElement _ _ _ _ _ (ih _))

theorem storeElement (room : Nat) (container index value : Value) (bracket : Token) (place : Place) :
    Confined gain (storeElement room container index value bracket place) :=
  writeElement _ _ _ _ _ (replacer place _)

/-! ## Calls and sequences -/

theorem callNative (room : Nat) (which : Native) (arguments : List Value) :
    Confined gain (callNative room which arguments) := by
  unfold Eval.callNative
  split
  · exact get fun _ => pure _
  · exact readLine.bind fun _ => pure _
  · split
    · exact pure _
    · exact get fun _ => pure _
    · exact stop _
  · exact (textOf _ _).bind fun _ => (textOf _ _).bind fun _ => pure _
  · split
    · exact (modifyStore fun s => .pushElement s _ _).bind fun _ => pure _
    · exact stop _
  · exact pure _

theorem atCall {body : Eval Value} (h : Confined gain body) (paren : Token) :
    Confined gain (atCall paren body) := by
  refine ⟨fun m => ?_⟩
  have same : after (Eval.atCall paren body) m = after body m := by
    unfold after Eval.atCall
    cases body m with
    | ok => rfl
    | error stop machine =>
      cases stop with
      | fault cause token => cases token <;> rfl
      | _ => rfl
  rw [same]
  exact h.grows m

theorem parts (node : Node) : Confined gain (parts node) := by
  unfold Eval.parts
  split
  · exact pure _
  · exact stop _

theorem evaluateAll {evaluate : Node → Eval Value} (h : ∀ node, Confined gain (evaluate node))
    (nodes : List Node) : Confined gain (evaluateAll evaluate nodes) := by
  induction nodes with
  | nil => exact pure _
  | cons node rest ih => exact (h node).bind fun _ => ih.bind fun _ => pure _

theorem runAll {execute : Node → Eval Completion} {nodes : List Node}
    (h : ∀ node ∈ nodes, Confined gain (execute node)) : Confined gain (runAll execute nodes) := by
  induction nodes with
  | nil => exact pure _
  | cons node rest ih =>
    refine (h node (by simp)).bind fun completion => ?_
    cases completion with
    | normal => exact ih fun node hn => h node (by simp [hn])
    | returned => exact pure _

theorem loop {condition : Eval Bool} {body : Eval Completion} (hc : Confined gain condition)
    (hb : Confined gain body) (rounds : Nat) : Confined gain (loop condition body rounds) := by
  induction rounds with
  | zero => exact stop _
  | succ rounds ih =>
    refine hc.bind fun holds => ite (hb.bind fun completion => ?_) (pure _)
    cases completion with
    | normal => exact ih
    | returned => exact pure _

/-- Parameters are bound in the scope of their call. -/
theorem bindAll (scope : Nat) (params : List Token) (arguments : List Value) :
    Confined (.only scope) (bindAll scope params arguments) := by
  induction params generalizing arguments with
  | nil => exact pure _
  | cons param params ih =>
    cases arguments with
    | nil => exact pure _
    | cons argument arguments => exact (define (fun _ _ => rfl) _).bind fun _ => ih _

end Confined

/-! ## The evaluator -/

/-- What the steps that have so much room may gain. -/
structure ConfinedAt (settings : Settings) (room : Nat) : Prop where
  evaluate : ∀ node scope, Confined .nothing (evaluate settings room node scope)
  evaluateNode : ∀ node scope, Confined .nothing (evaluateNode settings room node scope)
  locate : ∀ node scope, Confined .nothing (locate settings room node scope)
  call : ∀ callee arguments paren, Confined .nothing (call settings room callee arguments paren)
  execute : ∀ node scope, Confined (.declared scope node) (execute settings room node scope)

namespace ConfinedAt

variable {settings : Settings} {room : Nat}

theorem evaluate_succ (h : ConfinedAt settings room) (node : Node) (scope : Nat) :
    Confined .nothing (Eval.evaluate settings (room + 1) node scope) := by
  rw [Eval.evaluate]
  refine (h.evaluateNode node scope).bind fun value => ?_
  exact (Confined.traceExpression _ _ _ _).bind fun _ => .pure _

theorem evaluateNode_succ (h₀ : ConfinedAt settings room) (h : ConfinedAt settings (room + 1))
    (node : Node) (scope : Nat) :
    Confined .nothing (Eval.evaluateNode settings (room + 2) node scope) := by
  cases node with
  | literal => exact .pure _
  | grouping inner => exact h.evaluate inner scope
  | «variable» name => exact Confined.lookup _ _ _
  | assign name value =>
    exact (h.evaluate value scope).bind fun _ => (Confined.rebind _ _ _ _).bind fun _ => .pure _
  | unary operator right => exact (h.evaluate right scope).bind fun _ => Confined.applyUnary _ _
  | binary left operator right =>
    refine (h.evaluate left scope).bind fun _ => (h.evaluate right scope).bind fun _ => ?_
    exact Confined.applyBinary _ _ _ _
  | logical left operator right =>
    exact (h.evaluate left scope).bind fun _ => Confined.ite (.pure _) (h.evaluate right scope)
  | call callee paren arguments =>
    refine (h.evaluate callee scope).bind fun _ => (Confined.parts _).bind fun nodes => ?_
    refine (Confined.evaluateAll (fun node => h₀.evaluate node scope) nodes).bind fun _ => ?_
    exact h.call _ _ _
  | array bracket elements =>
    refine (Confined.parts _).bind fun nodes => ?_
    refine (Confined.evaluateAll (fun node => h₀.evaluate node scope) nodes).bind fun _ => ?_
    exact .create fun s => .newArray s _
  | indexGet target bracket index =>
    refine (h.evaluate target scope).bind fun _ => (h.evaluate index scope).bind fun _ => ?_
    exact Confined.elementAt _ _ _ _
  | indexSet target bracket index value =>
    refine (h.locate target scope).bind fun (_, _) => (h.evaluate index scope).bind fun _ => ?_
    refine (h.evaluate value scope).bind fun _ => ?_
    exact (Confined.storeElement _ _ _ _ _ _).bind fun _ => .pure _
  | _ => exact .stop _

theorem locate_succ (h : ConfinedAt settings room) (node : Node) (scope : Nat) :
    Confined .nothing (Eval.locate settings (room + 1) node scope) := by
  cases node with
  | «variable» name => exact (Confined.lookup _ _ _).bind fun _ => .pure _
  | grouping inner => exact h.locate inner scope
  | indexGet target bracket index =>
    refine (h.locate target scope).bind fun (_, _) => (h.evaluate index scope).bind fun _ => ?_
    exact (Confined.elementAt _ _ _ _).bind fun _ => .pure _
  | _ => exact (h.evaluate _ scope).bind fun _ => .pure _

theorem call_succ (h : ConfinedAt settings room) (callee : Value) (arguments : List Value)
    (paren : Token) : Confined .nothing (Eval.call settings (room + 3) callee arguments paren) := by
  have arity (cause : Fault) (next : Unit → Eval Value) :
      Confined .nothing (Eval.fault cause paren >>= next) := .bindFrom (.stop _) nofun
  cases callee with
  | native which =>
    rw [Eval.call]
    refine .ite (arity _ _) ?_
    refine (Confined.trace _ _ _).bind fun _ => ?_
    exact Confined.atCall (Confined.callNative _ _ _) paren
  | function place =>
    refine Confined.get fun m => ?_
    split
    · exact .stop _
    · next closure _ =>
      refine .ite (arity _ _) ?_
      refine (Confined.trace _ _ _).bind fun _ => Confined.atCall ?_ paren
      -- all that a body declares is declared in the scope of the call
      refine .inScope fun scope => ?_
      refine (Confined.bindAll scope _ _).bind fun _ => (Confined.parts _).bind fun body => ?_
      refine Confined.bind (.runAll fun node _ => ?_) fun completion => ?_
      · exact (h.execute node scope).mono fun _ _ hg => hg.1
      · cases completion <;> exact .pure _
  | _ => exact .stop _

theorem execute_succ (h₀ : ConfinedAt settings room) (h : ConfinedAt settings (room + 1))
    (node : Node) (scope : Nat) :
    Confined (.declared scope node) (Eval.execute settings (room + 2) node scope) := by
  have optional {gain : Gain} {value : Node} {next : Value → Eval Completion}
      (hnext : ∀ value, Confined gain (next value)) :
      Confined gain (if value.isAbsent then Pure.pure .nil >>= next
        else Eval.evaluate settings (room + 1) value scope >>= next) :=
    .ite (hnext .nil) ((h.evaluate value scope).of_nothing.bind hnext)
  cases node with
  | expression inner => exact (h.evaluate inner scope).of_nothing.discard.bind fun _ => .pure _
  | print inner =>
    refine (h.evaluate inner scope).of_nothing.bind fun _ => (Confined.textOf _ _).bind fun _ => ?_
    exact (Confined.printLine _).bind fun _ => .pure _
  | var name initializer =>
    refine optional fun value => (Confined.define (fun other ho => ?_) _).bind fun _ => ?_
    · exact ⟨rfl, name, by simp [Node.declared], ho⟩
    · exact (Confined.traceValue _ _ _ _ _).bind fun _ => .pure _
  | block statements =>
    -- a block opens a scope of its own
    refine (Confined.parts _).bind fun nodes => .inScope fun inner => .runAll fun node _ => ?_
    exact (h₀.execute node inner).mono fun _ _ hg => hg.1
  | ifElse condition thenBranch elseBranch =>
    refine (h.evaluate condition scope).of_nothing.bind fun value => ?_
    refine (Confined.traceValue _ _ _ _ _).bind fun _ => .ite ?_ (.ite (.pure _) ?_)
    · exact (h.execute thenBranch scope).mono fun _ _ ⟨hs, token, ht, hn⟩ =>
        ⟨hs, token, List.mem_append_left _ ht, hn⟩
    · exact (h.execute elseBranch scope).mono fun _ _ ⟨hs, token, ht, hn⟩ =>
        ⟨hs, token, List.mem_append_right _ ht, hn⟩
  | whileLoop condition body =>
    refine Confined.loop ?_ (h.execute body scope) _
    refine (h.evaluate condition scope).of_nothing.bind fun value => ?_
    exact (Confined.traceValue _ _ _ _ _).bind fun _ => .pure _
  | function name params body =>
    refine Confined.bind (.create fun s => .newClosure s _) fun function => ?_
    refine (Confined.define (fun other ho => ?_) _).bind fun _ => ?_
    · exact ⟨rfl, name, by simp [Node.declared], ho⟩
    · exact (Confined.trace _ _ _).bind fun _ => .pure _
  | giveBack keyword value => exact optional fun _ => .pure _
  | _ => exact .stop _

end ConfinedAt

/-- Every step keeps to its scope, however much room it has. -/
theorem confinedAt (settings : Settings) (room : Nat) : ConfinedAt settings room := by
  induction room using room_induction with
  | zero => exact ⟨fun _ _ => .stop _, fun _ _ => .stop _, fun _ _ => .stop _, fun _ _ _ => .stop _,
      fun _ _ => .stop _⟩
  | one h₀ =>
    exact ⟨h₀.evaluate_succ, fun _ _ => .stop _, h₀.locate_succ, fun _ _ _ => .stop _,
      fun _ _ => .stop _⟩
  | two h₀ h₁ =>
    exact ⟨h₁.evaluate_succ, h₀.evaluateNode_succ h₁, h₁.locate_succ, fun _ _ _ => .stop _,
      h₀.execute_succ h₁⟩
  | more room h₀ h₁ h₂ =>
    exact ⟨h₂.evaluate_succ, h₁.evaluateNode_succ h₂, h₂.locate_succ, h₀.call_succ,
      h₁.execute_succ h₂⟩

/-- Whether an expression or a statement ends or stops, in whatever state and scope, all that was there
is still there. Evaluating an expression and executing a block leave the names of all scopes as they
were. Executing a statement adds names to its own scope only, and of those only names that it declares
outside of blocks and functions. -/
theorem scopes_confined (settings : Settings) (room : Nat) (node : Node) (scope : Nat) (m : Machine) :
    m.store.Grows .nothing (after (evaluate settings room node scope) m).store ∧
      (∀ statements,
        m.store.Grows .nothing (after (execute settings room (.block statements) scope) m).store) ∧
      m.store.Grows (.declared scope node) (after (execute settings room node scope) m).store := by
  have confined := confinedAt settings room
  refine ⟨(confined.evaluate node scope).grows m, fun statements => ?_,
    (confined.execute node scope).grows m⟩
  refine ((confined.execute (.block statements) scope).grows m).mono fun _ _ hg => ?_
  obtain ⟨-, token, ht, -⟩ := hg
  exact absurd ht (by simp [Node.declared])

end Eval

end GameScript
