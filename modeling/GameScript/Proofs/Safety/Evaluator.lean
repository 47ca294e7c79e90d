import GameScript.Machine.Evaluator
import GameScript.Proofs.Safety.Tree
import GameScript.Proofs.Steps

/-! # Running a program meets no defect

`Safe` says of a step that it keeps the functions in the store well formed and that it stops only for
an error of the program at a token, for want of room or for a loop without end. Every step is safe on
the trees of programs, in every state whose functions are well formed: no operator is unknown, no part
is missing, no position lies outside its container and nothing is divided by zero. -/

namespace GameScript

/-- A function whose declaration came from a program. -/
structure Closure.Sound (W : Token → Prop) (closure : Closure) : Prop where
  name : W closure.name
  params : ∀ param ∈ closure.params, W param
  body : ∃ body, closure.body = .sequence body ∧ ∀ node ∈ body, IsStatement W node

/-- A store all of whose functions came from programs. -/
def Store.Sound (W : Token → Prop) (store : Store) : Prop :=
  ∀ closure ∈ store.closures, closure.Sound W

/-- A reason to stop that programs can give. -/
def Stop.Allowed (W : Token → Prop) : Stop → Prop
  | .fault _ token? => ∀ token ∈ token?, W token
  | .overflow | .endless => True
  | .broken _ => False

/-- A statement's end that programs can give. -/
def Completion.Sound (W : Token → Prop) : Completion → Prop
  | .normal => True
  | .returned _ keyword => W keyword

namespace Eval

variable {α β : Type} {W : Token → Prop}

/-- A step that keeps functions well formed and stops only for reasons that programs can give. -/
structure Safe (W : Token → Prop) (p : Eval α) (R : α → Prop) : Prop where
  ok : ∀ {m a m'}, m.store.Sound W → p m = .ok a m' → m'.store.Sound W ∧ R a
  stop : ∀ {m s m'}, m.store.Sound W → p m = .error s m' → m'.store.Sound W ∧ s.Allowed W

/-- No condition on a result. -/
def anything (_ : α) : Prop := True

namespace Safe

variable {p : Eval α} {R : α → Prop} {S : β → Prop}

theorem pure {a : α} (h : R a) : Safe W (pure a) R :=
  ⟨fun hm hp => by obtain ⟨rfl, rfl⟩ := pure_ok hp; exact ⟨hm, h⟩, nofun⟩

theorem bind {f : α → Eval β} (hp : Safe W p R) (hf : ∀ a, R a → Safe W (f a) S) :
    Safe W (p >>= f) S := by
  constructor
  · intro m b m'' hm h
    obtain ⟨a, m', h₁, h₂⟩ := bind_ok h
    obtain ⟨hm', ha⟩ := hp.ok hm h₁
    exact (hf a ha).ok hm' h₂
  · intro m s m'' hm h
    rcases bind_error h with h₁ | ⟨a, m', h₁, h₂⟩
    · exact hp.stop hm h₁
    · obtain ⟨hm', ha⟩ := hp.ok hm h₁
      exact (hf a ha).stop hm' h₂

theorem fault {token : Token} (ht : W token) (cause : Fault) :
    Safe W (fault cause token : Eval α) R :=
  ⟨nofun, fun hm h => by cases h; exact ⟨hm, fun _ h => by cases h; exact ht⟩⟩

theorem nativeFault (cause : Fault) : Safe W (nativeFault cause : Eval α) R :=
  ⟨nofun, fun hm h => by cases h; exact ⟨hm, nofun⟩⟩

theorem overflow : Safe W (overflow : Eval α) R :=
  ⟨nofun, fun hm h => by cases h; exact ⟨hm, trivial⟩⟩

theorem endless : Safe W (throw .endless : Eval α) R :=
  ⟨nofun, fun hm h => by cases h; exact ⟨hm, trivial⟩⟩

theorem get : Safe W (get : Eval Machine) fun m => m.store.Sound W :=
  ⟨fun hm h => by cases h; exact ⟨hm, hm⟩, nofun⟩

theorem modifyGet {f : Machine → α × Machine}
    (h : ∀ m, m.store.Sound W → (f m).2.store.Sound W) : Safe W (modifyGet f) anything :=
  ⟨fun {m _ _} hm hp => by cases hp; exact ⟨h m hm, trivial⟩, nofun⟩

/-- A change of the machine that leaves its functions alone. -/
theorem modify {f : Machine → Machine} (h : ∀ m, (f m).store.closures = m.store.closures) :
    Safe W (modify f) anything := by
  refine modifyGet fun m hm => ?_
  unfold Store.Sound
  rw [h m]
  exact hm

theorem modifyStore {operation : Store → Store}
    (h : ∀ store, (operation store).closures = store.closures) :
    Safe W (modifyStore operation) anything := modify fun m => h m.store

theorem create {operation : Store → α × Store}
    (h : ∀ store, store.Sound W → (operation store).2.Sound W) :
    Safe W (create operation) anything := modifyGet fun m => h m.store

/-- A step whose result is not used. -/
theorem discard (hp : Safe W p R) : Safe W (Functor.discard p) anything := by
  show Safe W (p >>= fun _ => Pure.pure ()) anything
  exact hp.bind fun _ _ => pure trivial

theorem ite {c : Prop} [Decidable c] {q : Eval α} (hp : c → Safe W p R) (hq : ¬ c → Safe W q R) :
    Safe W (if c then p else q) R := by
  split
  · exact hp ‹_›
  · exact hq ‹_›

/-! ## The store and the streams -/

theorem nameOf {token : Token} (hW : token.Written) : Safe W (nameOf token) anything := by
  obtain ⟨text, ht⟩ := hW.lexeme
  unfold Eval.nameOf Token.name?
  rw [ht]
  exact pure trivial

theorem ownerOf {token : Token} (ht : W token) (room scope : Nat) (name : Name) :
    Safe W (ownerOf room scope token name) anything := by
  refine get.bind fun m _ => ?_
  split
  · exact pure trivial
  · exact fault ht _
  · exact overflow

theorem textOf (room : Nat) (value : Value) : Safe W (textOf room value) anything := by
  refine get.bind fun m _ => ?_
  split
  · exact pure trivial
  · exact overflow

theorem printLine (text : String) : Safe W (printLine text) anything := modify fun _ => rfl

theorem trace (settings : Settings) (level : Nat) (message : String) :
    Safe W (trace settings level message) anything := by
  unfold Eval.trace
  split
  · exact ite (fun _ => modify fun _ => rfl) fun _ => pure trivial
  · exact pure trivial

theorem traceValue (settings : Settings) (room level : Nat) (label : String) (value : Value) :
    Safe W (traceValue settings room level label value) anything := by
  unfold Eval.traceValue
  split
  · exact (textOf _ _).bind fun _ _ => trace _ _ _
  · exact pure trivial

theorem traceExpression (settings : Settings) (room : Nat) (node : Node) (value : Value) :
    Safe W (traceExpression settings room node value) anything := by
  unfold Eval.traceExpression
  split
  · exact ite (fun _ => (textOf _ _).bind fun _ _ => trace _ _ _) fun _ => pure trivial
  · exact pure trivial

variable (hW : ∀ token, W token → token.Written)

include hW

theorem define {token : Token} (ht : W token) (scope : Nat) (value : Value) :
    Safe W (define scope token value) anything :=
  (nameOf (hW token ht)).bind fun _ _ => modifyStore fun _ => rfl

theorem lookup {token : Token} (ht : W token) (room scope : Nat) :
    Safe W (lookup room scope token) anything :=
  (nameOf (hW token ht)).bind fun name _ => (ownerOf ht room scope name).bind fun _ _ =>
    get.bind fun _ _ => pure trivial

theorem rebind {token : Token} (ht : W token) (room scope : Nat) (value : Value) :
    Safe W (rebind room scope token value) anything :=
  (nameOf (hW token ht)).bind fun name _ => (ownerOf ht room scope name).bind fun _ _ =>
    modifyStore fun _ => rfl

omit hW

/-! ## Operators -/

theorem applyUnary {operator : Token} (ho : W operator)
    (hk : operator.kind = .bang ∨ operator.kind = .minus) (operand : Value) :
    Safe W (applyUnary operator operand) anything := by
  unfold Eval.applyUnary
  split
  · exact pure trivial
  · split
    · exact pure trivial
    · exact fault ho _
  · next h₁ h₂ => exact (hk.elim h₁ h₂).elim

theorem add {operator : Token} (ho : W operator) (room : Nat) (a b : Value) :
    Safe W (add room operator a b) anything := by
  unfold Eval.add
  split
  · exact pure trivial
  · exact pure trivial
  · exact (textOf _ _).bind fun _ _ => pure trivial
  · exact (textOf _ _).bind fun _ _ => pure trivial
  · exact fault ho _

theorem areEqual (room : Nat) (a b : Value) : Safe W (areEqual room a b) anything := by
  refine get.bind fun m _ => ?_
  split
  · exact pure trivial
  · exact overflow

/-- A division whose divisor has been checked. -/
theorem divide {operation : Float → Float → Float} {x y : Float} (hy : ¬ (y == 0) = true) :
    Safe W (divide operation x y) anything := by
  unfold Eval.divide
  rw [if_neg hy]
  exact pure trivial

theorem arithmetic {operator : Token} (ho : W operator) (hk : operator.kind.isBinary)
    (he : operator.kind ≠ .equalEqual) (hb : operator.kind ≠ .bangEqual)
    (hp : operator.kind ≠ .plus) (x y : Float) : Safe W (arithmetic operator x y) anything := by
  unfold Eval.arithmetic
  split
  · exact pure trivial
  · exact pure trivial
  · exact ite (fun _ => fault ho _) fun hy => divide hy
  · exact ite (fun _ => fault ho _) fun hy => divide hy
  · exact pure trivial
  · exact pure trivial
  · exact pure trivial
  · exact pure trivial
  · unfold TokenKind.isBinary at hk
    grind

theorem applyBinary {operator : Token} (ho : W operator) (hk : operator.kind.isBinary) (room : Nat)
    (a b : Value) : Safe W (applyBinary room operator a b) anything := by
  unfold Eval.applyBinary
  split
  · exact (areEqual _ _ _).bind fun _ _ => pure trivial
  · exact (areEqual _ _ _).bind fun _ _ => pure trivial
  · exact add ho _ _ _
  · next he hb hp =>
    split
    · exact arithmetic ho hk he hb hp _ _
    · exact fault ho _

/-! ## Indexing -/

/-- A position that is given lies in the container. -/
theorem position {bracket : Token} (hb : W bracket) (room : Nat) (index : Value) (length : Nat) :
    Safe W (position room index length bracket) fun i => 0 ≤ i ∧ i < length := by
  unfold Eval.position
  dsimp only
  split
  · exact (textOf _ _).bind fun _ _ => fault hb _
  · exact ite (fun hi => pure (by simpa using hi)) fun _ => fault hb _

theorem itemAt {items : Nat → Option α} {i : Int} {length : Nat} (hi : 0 ≤ i ∧ i < length)
    (h : ∀ n < length, (items n).isSome) : Safe W (itemAt items i) anything := by
  obtain ⟨n, rfl⟩ := Int.eq_ofNat_of_zero_le hi.1
  obtain ⟨item, hitem⟩ := Option.isSome_iff_exists.mp (h n (by omega))
  show Safe W (Eval.itemAt items (.ofNat n)) anything
  unfold Eval.itemAt
  simp only [hitem]
  exact pure trivial

theorem elementAt {bracket : Token} (hb : W bracket) (room : Nat) (container index : Value) :
    Safe W (elementAt room container index bracket) anything := by
  unfold Eval.elementAt
  split
  · exact get.bind fun m _ => (position hb _ _ _).bind fun i hi => itemAt hi fun n hn => by simp [hn]
  · refine (position hb _ _ _).bind fun i hi => (itemAt hi fun n hn => ?_).bind fun _ _ => pure trivial
    simpa [String.length_toList] using hn
  · exact fault hb _

theorem writeElement {bracket : Token} (hb : W bracket) (room : Nat) (container index value : Value)
    {replace : Option (Value → Eval Unit)}
    (hr : ∀ f ∈ replace, ∀ value, Safe W (f value) anything) :
    Safe W (writeElement room container index value bracket replace) anything := by
  unfold Eval.writeElement
  split
  · refine get.bind fun m _ => (position hb _ _ _).bind fun i hi => ?_
    exact (itemAt hi fun n hn => by simp [hn]).discard.bind fun _ _ => modifyStore fun _ => rfl
  · refine (position hb _ _ _).bind fun i hi => ?_
    split
    · exact hr _ rfl _
    · exact fault hb _
    · exact fault hb _
  · exact fault hb _

end Safe

/-- A place whose tokens satisfy a condition. -/
def Place.Sound (W : Token → Prop) : Place → Prop
  | .nowhere => True
  | .variable _ name => W name
  | .element _ _ bracket outer => W bracket ∧ outer.Sound W

namespace Safe

variable (hW : ∀ token, W token → token.Written)

include hW

theorem replacer {place : Place} (h : place.Sound W) (room : Nat) :
    ∀ f ∈ place.replacer room, ∀ value, Safe W (f value) anything := by
  induction place generalizing room with
  | nowhere => nofun
  | «variable» scope name =>
    intro _ h value
    obtain ⟨⟩ := h
    exact rebind hW h _ _ _
  | element container index bracket outer ih =>
    intro _ h value
    obtain ⟨⟩ := h
    exact ite (fun _ => overflow) fun _ => writeElement h.1 _ _ _ _ (ih h.2 _)

theorem storeElement {bracket : Token} (hb : W bracket) {place : Place} (hp : place.Sound W)
    (room : Nat) (container index value : Value) :
    Safe W (storeElement room container index value bracket place) anything :=
  writeElement hb _ _ _ _ (replacer hW hp _)

omit hW

/-! ## Calls -/

theorem readLine : Safe W readLine anything := by
  refine modifyGet fun m hm => ?_
  split
  · exact hm
  · exact hm

theorem callNative (room : Nat) (which : Native) (arguments : List Value) :
    Safe W (callNative room which arguments) anything := by
  unfold Eval.callNative
  split
  · exact get.bind fun _ _ => pure trivial
  · exact readLine.bind fun _ _ => pure trivial
  · split
    · exact pure trivial
    · exact get.bind fun _ _ => pure trivial
    · exact nativeFault _
  · exact (textOf _ _).bind fun _ _ => (textOf _ _).bind fun _ _ => pure trivial
  · split
    · exact Safe.bind (modifyStore fun _ => rfl) fun _ _ => pure trivial
    · exact nativeFault _
  · exact pure trivial

theorem atCall {paren : Token} (hp : W paren) {body : Eval Value} (hb : Safe W body anything) :
    Safe W (atCall paren body) anything := by
  have hparen : ∀ token ∈ some paren, W token := fun _ h => by cases h; exact hp
  constructor
  · intro m a m' hm h
    unfold Eval.atCall at h
    split at h <;> cases h
    exact hb.ok hm ‹_›
  · intro m s m' hm h
    unfold Eval.atCall at h
    split at h <;> cases h
    · exact ⟨(hb.stop hm ‹_›).1, hparen⟩
    · exact ⟨(hb.stop hm ‹_›).1, hparen⟩
    · exact hb.stop hm ‹_›

theorem evaluateAll {evaluate : Node → Eval Value} {nodes : List Node}
    (h : ∀ node ∈ nodes, Safe W (evaluate node) anything) :
    Safe W (evaluateAll evaluate nodes) anything := by
  induction nodes with
  | nil => exact pure trivial
  | cons node rest ih =>
    refine (h node (by simp)).bind fun _ _ => ?_
    exact (ih fun node hn => h node (by simp [hn])).bind fun _ _ => pure trivial

theorem runAll {execute : Node → Eval Completion} {nodes : List Node}
    (h : ∀ node ∈ nodes, Safe W (execute node) (·.Sound W)) :
    Safe W (runAll execute nodes) (·.Sound W) := by
  induction nodes with
  | nil => exact pure trivial
  | cons node rest ih =>
    refine (h node (by simp)).bind fun completion hc => ?_
    cases completion with
    | normal => exact ih fun node hn => h node (by simp [hn])
    | returned => exact pure hc

theorem loop {condition : Eval Bool} {body : Eval Completion} (hc : Safe W condition anything)
    (hb : Safe W body (·.Sound W)) (rounds : Nat) : Safe W (loop condition body rounds) (·.Sound W) := by
  induction rounds with
  | zero => exact endless
  | succ rounds ih =>
    refine hc.bind fun holds _ => ite (fun _ => hb.bind fun completion hd => ?_) fun _ => pure trivial
    cases completion with
    | normal => exact ih
    | returned => exact pure hd

theorem bindAll (hW : ∀ token, W token → token.Written) {params : List Token}
    (h : ∀ param ∈ params, W param) (scope : Nat) (arguments : List Value) :
    Safe W (bindAll scope params arguments) anything := by
  induction params generalizing arguments with
  | nil => exact pure trivial
  | cons param params ih =>
    cases arguments with
    | nil => exact pure trivial
    | cons argument arguments =>
      refine (define hW (h param (by simp)) _ _).bind fun _ _ => ?_
      exact ih (fun param hp => h param (by simp [hp])) _

end Safe

/-! ## The evaluator -/

/-- What the steps that have so much room do on the trees of programs. -/
structure SafeAt (W : Token → Prop) (settings : Settings) (room : Nat) : Prop where
  evaluate : ∀ {node} scope, IsExpression W node →
    Safe W (evaluate settings room node scope) anything
  evaluateNode : ∀ {node} scope, IsExpression W node →
    Safe W (evaluateNode settings room node scope) anything
  locate : ∀ {node} scope, IsExpression W node →
    Safe W (locate settings room node scope) fun (_, place) => place.Sound W
  call : ∀ callee arguments {paren}, W paren →
    Safe W (call settings room callee arguments paren) anything
  execute : ∀ {node} scope, IsStatement W node →
    Safe W (execute settings room node scope) (·.Sound W)

namespace SafeAt

variable {settings : Settings} {room : Nat} {node : Node}

theorem evaluate_succ (h : SafeAt W settings room) (hn : IsExpression W node) (scope : Nat) :
    Safe W (Eval.evaluate settings (room + 1) node scope) anything := by
  rw [Eval.evaluate]
  refine (h.evaluateNode scope hn).bind fun value _ => ?_
  exact (Safe.traceExpression _ _ _ _).bind fun _ _ => .pure trivial

theorem evaluateNode_succ (hW : ∀ token, W token → token.Written) (h₀ : SafeAt W settings room)
    (h : SafeAt W settings (room + 1)) (hn : IsExpression W node) (scope : Nat) :
    Safe W (Eval.evaluateNode settings (room + 2) node scope) anything := by
  cases hn with
  | literal => exact .pure trivial
  | grouping hi => exact h.evaluate scope hi
  | reference ht => exact Safe.lookup hW ht _ _
  | assign ht hv =>
    refine (h.evaluate scope hv).bind fun value _ => ?_
    exact (Safe.rebind hW ht _ _ _).bind fun _ _ => .pure trivial
  | unary ho hk hr => exact (h.evaluate scope hr).bind fun value _ => Safe.applyUnary ho hk value
  | binary hl ho hk hr =>
    refine (h.evaluate scope hl).bind fun a _ => (h.evaluate scope hr).bind fun b _ => ?_
    exact Safe.applyBinary ho hk _ a b
  | logical hl ho hk hr =>
    refine (h.evaluate scope hl).bind fun a _ => ?_
    exact Safe.ite (fun _ => .pure trivial) fun _ => h.evaluate scope hr
  | call hc hp _ ha =>
    refine (h.evaluate scope hc).bind fun callee _ => ?_
    refine (Safe.evaluateAll fun node hn => h₀.evaluate scope (ha node hn)).bind fun values _ => ?_
    exact h.call callee values hp
  | array hb he =>
    refine (Safe.evaluateAll fun node hn => h₀.evaluate scope (he node hn)).bind fun values _ => ?_
    exact .create fun _ hs => hs
  | indexGet ht hb hi =>
    refine (h.evaluate scope ht).bind fun container _ => (h.evaluate scope hi).bind fun index _ => ?_
    exact Safe.elementAt hb _ container index
  | indexSet ht hb hi hv =>
    refine (h.locate scope ht).bind fun (container, place) hp => ?_
    refine (h.evaluate scope hi).bind fun index _ => (h.evaluate scope hv).bind fun value _ => ?_
    exact (Safe.storeElement hW hb hp _ _ _ _).bind fun _ _ => .pure trivial

theorem locate_succ (hW : ∀ token, W token → token.Written) (h : SafeAt W settings room)
    (hn : IsExpression W node) (scope : Nat) :
    Safe W (Eval.locate settings (room + 1) node scope) fun (_, place) => place.Sound W := by
  cases hn with
  | reference ht => exact (Safe.lookup hW ht _ _).bind fun _ _ => .pure ht
  | grouping hi => exact h.locate scope hi
  | indexGet ht hb hi =>
    refine (h.locate scope ht).bind fun (container, outer) ho => ?_
    refine (h.evaluate scope hi).bind fun index _ => ?_
    exact (Safe.elementAt hb _ _ _).bind fun _ _ => .pure ⟨hb, ho⟩
  | _ => exact (h.evaluate scope (by constructor <;> assumption)).bind fun _ _ => .pure trivial

/-- The body of a function is run in a scope of its own. -/
theorem body (hW : ∀ token, W token → token.Written) (h : SafeAt W settings room) {closure : Closure}
    (hc : closure.Sound W) (arguments : List Value) :
    Safe W (do
      let scope ← Eval.create (·.newScope (some closure.scope))
      Eval.bindAll scope closure.params arguments
      let body ← Eval.parts closure.body
      match ← Eval.runAll (fun node => Eval.execute settings room node scope) body with
      | .normal => Pure.pure .nil
      | .returned value _ => Pure.pure value) anything := by
  obtain ⟨body, hbody, hall⟩ := hc.body
  rw [hbody]
  refine Safe.bind (R := anything) (.create fun _ hs => hs) fun scope _ => ?_
  refine (Safe.bindAll hW hc.params scope arguments).bind fun _ _ => ?_
  refine (Safe.runAll fun node hn => h.execute scope (hall node hn)).bind fun completion _ => ?_
  cases completion <;> exact .pure trivial

theorem call_succ (hW : ∀ token, W token → token.Written) (h : SafeAt W settings room)
    {paren : Token} (hp : W paren) (callee : Value) (arguments : List Value) :
    Safe W (Eval.call settings (room + 3) callee arguments paren) anything := by
  have arity (cause : Fault) (next : Unit → Eval Value) :
      Safe W (Eval.fault cause paren >>= next) anything :=
    (Safe.fault (R := fun _ => False) hp cause).bind nofun
  cases callee with
  | native which =>
    rw [Eval.call]
    refine .ite (fun _ => arity _ _) fun _ => ?_
    refine (Safe.trace _ _ _).bind fun _ _ => ?_
    exact Safe.atCall hp (Safe.callNative _ _ _)
  | function place =>
    refine Safe.get.bind fun m hm => ?_
    split
    · exact .fault hp _
    · next closure hc =>
      have hclosure : closure.Sound W := hm closure (Array.mem_of_getElem? hc)
      refine .ite (fun _ => arity _ _) fun _ => ?_
      refine (Safe.trace _ _ _).bind fun _ _ => ?_
      exact Safe.atCall hp (h.body hW hclosure arguments)
  | _ => exact .fault hp _

theorem execute_succ (hW : ∀ token, W token → token.Written) (h₀ : SafeAt W settings room)
    (h : SafeAt W settings (room + 1)) (hn : IsStatement W node) (scope : Nat) :
    Safe W (Eval.execute settings (room + 2) node scope) (·.Sound W) := by
  -- A part that may be missing counts as `nil`.
  have optional {value : Node} (hv : value = .absent ∨ IsExpression W value)
      {next : Value → Eval Completion} (hnext : ∀ value, Safe W (next value) (·.Sound W)) :
      Safe W (if value.isAbsent then Pure.pure .nil >>= next
        else Eval.evaluate settings (room + 1) value scope >>= next) (·.Sound W) := by
    rcases hv with rfl | hv
    · exact hnext .nil
    · exact .ite (fun _ => hnext .nil) fun _ => (h.evaluate scope hv).bind fun value _ => hnext value
  cases hn with
  | expression hi => exact (h.evaluate scope hi).discard.bind fun _ _ => .pure trivial
  | print hi =>
    refine (h.evaluate scope hi).bind fun value _ => (Safe.textOf _ _).bind fun text _ => ?_
    exact (Safe.printLine _).bind fun _ _ => .pure trivial
  | var ht hv =>
    refine optional hv fun value => (Safe.define hW ht _ _).bind fun _ _ => ?_
    exact (Safe.traceValue _ _ _ _ _).bind fun _ _ => .pure trivial
  | block hb =>
    rw [Eval.execute]
    refine Safe.bind (R := fun nodes => ∀ node ∈ nodes, IsStatement W node) (.pure hb) fun nodes hb => ?_
    refine Safe.bind (R := anything) (.create fun _ hs => hs) fun inner _ => ?_
    exact Safe.runAll fun node hn => h₀.execute inner (hb node hn)
  | ifThen hc ht =>
    refine (h.evaluate scope hc).bind fun value _ => (Safe.traceValue _ _ _ _ _).bind fun _ _ => ?_
    exact .ite (fun _ => h.execute scope ht) fun _ => .pure trivial
  | ifElse hc ht he =>
    refine (h.evaluate scope hc).bind fun value _ => (Safe.traceValue _ _ _ _ _).bind fun _ _ => ?_
    refine .ite (fun _ => h.execute scope ht) fun _ => ?_
    exact .ite (fun _ => .pure trivial) fun _ => h.execute scope he
  | whileLoop hc hb =>
    refine Safe.loop ?_ (h.execute scope hb) _
    refine (h.evaluate scope hc).bind fun value _ => (Safe.traceValue _ _ _ _ _).bind fun _ _ => ?_
    exact .pure trivial
  | function ht hp hb =>
    -- The new function is as well formed as its declaration.
    refine Safe.bind (R := anything) (.create fun store hs closure hc => ?_) fun function _ => ?_
    · rcases Array.mem_push.mp hc with hc | rfl
      · exact hs closure hc
      · exact ⟨ht, hp, _, rfl, hb⟩
    · refine (Safe.define hW ht _ _).bind fun _ _ => ?_
      exact (Safe.trace _ _ _).bind fun _ _ => .pure trivial
  | giveBack hk hv => exact optional hv fun value => .pure hk

end SafeAt

/-- Every step is safe on the trees of programs, however much room it has. -/
theorem safeAt (hW : ∀ token, W token → token.Written) (settings : Settings) (room : Nat) :
    SafeAt W settings room := by
  induction room using room_induction with
  | zero => exact ⟨fun _ _ => .overflow, fun _ _ => .overflow, fun _ _ => .overflow,
      fun _ _ _ _ => .overflow, fun _ _ => .overflow⟩
  | one h₀ =>
    exact ⟨fun scope hn => h₀.evaluate_succ hn scope, fun _ _ => .overflow,
      fun scope hn => h₀.locate_succ hW hn scope, fun _ _ _ _ => .overflow, fun _ _ => .overflow⟩
  | two h₀ h₁ =>
    exact ⟨fun scope hn => h₁.evaluate_succ hn scope,
      fun scope hn => h₀.evaluateNode_succ hW h₁ hn scope,
      fun scope hn => h₁.locate_succ hW hn scope, fun _ _ _ _ => .overflow,
      fun scope hn => h₀.execute_succ hW h₁ hn scope⟩
  | more room h₀ h₁ h₂ =>
    exact ⟨fun scope hn => h₂.evaluate_succ hn scope,
      fun scope hn => h₁.evaluateNode_succ hW h₂ hn scope,
      fun scope hn => h₂.locate_succ hW hn scope,
      fun callee arguments _ hp => h₀.call_succ hW hp callee arguments,
      fun scope hn => h₁.execute_succ hW h₂ hn scope⟩

theorem Safe.runProgram (hW : ∀ token, W token → token.Written) (settings : Settings) (room : Nat)
    {statements : List Node} (h : ∀ node ∈ statements, IsStatement W node) :
    Safe W (runProgram settings room statements) anything := by
  induction statements with
  | nil => exact .pure trivial
  | cons node rest ih =>
    refine ((safeAt hW settings room).execute _ (h node (by simp))).bind fun completion hc => ?_
    cases completion with
    | normal => exact ih fun node hn => h node (by simp [hn])
    | returned value keyword => exact .fault hc _

end Eval

end GameScript
