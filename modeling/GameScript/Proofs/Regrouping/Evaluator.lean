import GameScript.Machine.Evaluator
import GameScript.Proofs.Regrouping.Store
import GameScript.Proofs.Steps

/-! # Running trees with other groupings

Two machines that hold the same scopes, arrays and streams, and functions that differ in groupings
only, do the same with trees that do: they give the same values, print the same, read the same and
stop for the same reason at the same token. A grouping takes room, so this is said of steps that have
different room: the second one follows the first one unless that runs out of room. It may also build
no texts for the trace where the first one does. -/

namespace GameScript

open Node (SameParts SameExpression SameStatement)

/-- Running out of room, inside a call or outside. -/
def Stop.isExhaustion : Stop → Bool
  | .overflow => true
  | .fault cause _ => cause.name = .stackOverflow
  | .endless | .broken _ => false

/-- Settings of which the second trace as much as the first, or nothing. -/
structure Settings.Quiets (settings settings' : Settings) : Prop where
  rounds : settings.rounds = settings'.rounds
  tracing : settings'.tracing = none ∨ settings'.tracing = settings.tracing

namespace Eval

variable {α β : Type} {S : Node → Node → Prop}

/-! ## Steps -/

/-- The same end of two steps, unless the first one runs out of room. -/
inductive SameEnd (S : Node → Node → Prop) :
    EStateM.Result Stop Machine α → EStateM.Result Stop Machine α → Prop where
  | ok {a : α} {m m' : Machine} : m.Resembles S m' → SameEnd S (.ok a m) (.ok a m')
  | error {stop : Stop} {m m' : Machine} : m.Resembles S m' →
      SameEnd S (.error stop m) (.error stop m')
  | exhausted {stop : Stop} {m : Machine} {result : EStateM.Result Stop Machine α} :
      stop.isExhaustion → SameEnd S (.error stop m) result

/-- The second step ends as the first one does on a machine like its own, unless that runs out of
room. -/
structure Follows (S : Node → Node → Prop) (p p' : Eval α) : Prop where
  ends : ∀ {m m'}, m.Resembles S m' → SameEnd S (p m) (p' m')

namespace Follows

variable {p p' : Eval α}

theorem pure (a : α) : Follows S (pure a) (Pure.pure a) := ⟨fun hm => .ok hm⟩

theorem stop (s : Stop) : Follows S (throw s : Eval α) (throw s) := ⟨fun hm => .error hm⟩

/-- A step without room is followed by any other. -/
theorem overflow : Follows S (overflow : Eval α) p' := ⟨fun _ => .exhausted rfl⟩

theorem bind {f f' : α → Eval β} (hp : Follows S p p') (hf : ∀ a, Follows S (f a) (f' a)) :
    Follows S (p >>= f) (p' >>= f') := by
  refine ⟨fun {m m'} hm => ?_⟩
  have h := hp.ends hm
  generalize hr : p m = r at h
  generalize hr' : p' m' = r' at h
  cases h with
  | ok hd =>
    rw [bind_eq_of_ok hr, bind_eq_of_ok hr']
    exact (hf _).ends hd
  | error hd =>
    rw [bind_eq_of_error hr, bind_eq_of_error hr']
    exact .error hd
  | exhausted hs =>
    rw [bind_eq_of_error hr]
    exact .exhausted hs

theorem ite {c : Prop} [Decidable c] {q q' : Eval α} (hp : Follows S p p') (hq : Follows S q q') :
    Follows S (if c then p else q) (if c then p' else q') := by
  split
  · exact hp
  · exact hq

theorem discard (h : Follows S p p') : Follows S (discard p) (Functor.discard p') :=
  h.bind fun _ => pure ()

theorem fault (cause : Fault) (token : Token) :
    Follows S (fault cause token : Eval α) (Eval.fault cause token) := stop _

theorem broken (defect : Defect) : Follows S (broken defect : Eval α) (Eval.broken defect) := stop _

theorem get {f f' : Machine → Eval β}
    (hf : ∀ {m m'}, m.Resembles S m' → Follows S (f m) (f' m')) :
    Follows S ((get : Eval Machine) >>= f) ((MonadState.get : Eval Machine) >>= f') :=
  ⟨fun hm => (hf hm).ends hm⟩

theorem modifyGet {f f' : Machine → α × Machine}
    (h : ∀ {m m'}, m.Resembles S m' → (f m).1 = (f' m').1 ∧ (f m).2.Resembles S (f' m').2) :
    Follows S (modifyGet f) (MonadStateOf.modifyGet f') := by
  refine ⟨fun {m m'} hm => ?_⟩
  obtain ⟨hresult, hd⟩ := h hm
  change SameEnd S (.ok (f m).1 (f m).2) (.ok (f' m').1 (f' m').2)
  rw [hresult]
  exact .ok hd

theorem modify {f f' : Machine → Machine}
    (h : ∀ {m m'}, m.Resembles S m' → (f m).Resembles S (f' m')) :
    Follows S (modify f) (modify f') :=
  ⟨fun hm => .ok (h hm)⟩

theorem modifyStore {f : Store → Store} (h : ∀ {s s'}, s.Resembles S s' → (f s).Resembles S (f s')) :
    Follows S (modifyStore f) (Eval.modifyStore f) :=
  modify fun hm => ⟨h hm.store, hm.input, hm.output, hm.clock⟩

theorem create {f f' : Store → α × Store}
    (h : ∀ {s s'}, s.Resembles S s' → (f s).1 = (f' s').1 ∧ (f s).2.Resembles S (f' s').2) :
    Follows S (create f) (Eval.create f') :=
  modifyGet fun hm => ⟨(h hm.store).1, (h hm.store).2, hm.input, hm.output, hm.clock⟩

/-! ## Text and streams -/

theorem printLine (text : String) : Follows S (printLine text) (Eval.printLine text) :=
  modify fun hm => ⟨hm.store, hm.input, by simp only [hm.output], hm.clock⟩

theorem readLine : Follows S readLine Eval.readLine := by
  refine modifyGet fun {m m'} hm => ?_
  rw [hm.input]
  split
  · exact ⟨rfl, hm⟩
  · exact ⟨rfl, hm.store, rfl, hm.output, hm.clock⟩

theorem textOf {room room' : Nat} (hr : room ≤ room') (value : Value) :
    Follows S (textOf room value) (Eval.textOf room' value) := by
  refine get fun {m m'} hm => ?_
  cases ht : m.store.text? room value with
  | some text =>
    rw [hm.store.text? hr ht]
    exact pure text
  | none => exact overflow

/-- A text that only the first step builds. -/
theorem textOf_aside {room : Nat} {value : Value} {f : String → Eval α}
    (hf : ∀ text, Follows S (f text) p') : Follows S (Eval.textOf room value >>= f) p' := by
  refine ⟨fun {m m'} hm => ?_⟩
  rw [textOf_bind]
  cases m.store.text? room value with
  | some text => exact (hf text).ends hm
  | none => exact .exhausted rfl

/-! ## Traces -/

theorem trace (settings settings' : Settings) (level level' : Nat) (message message' : String) :
    Follows S (trace settings level message) (Eval.trace settings' level' message') := by
  refine ⟨fun {m m'} hm => ?_⟩
  obtain ⟨log, hlog⟩ := trace_ok settings level message m
  obtain ⟨log', hlog'⟩ := trace_ok settings' level' message' m'
  rw [hlog, hlog']
  exact .ok (hm.withLog log log')

/-- A message that only the first step keeps. -/
theorem trace_aside (settings : Settings) (level : Nat) (message : String) :
    Follows S (Eval.trace settings level message) (Pure.pure ()) := by
  refine ⟨fun {m m'} hm => ?_⟩
  obtain ⟨log, hlog⟩ := trace_ok settings level message m
  rw [hlog]
  exact .ok (hm.withLog log m'.log)

theorem traceValue {settings settings' : Settings} (hs : settings.Quiets settings')
    {room room' : Nat} (hr : room ≤ room') (level : Nat) (label label' : String) (value : Value) :
    Follows S (traceValue settings room level label value)
      (Eval.traceValue settings' room' level label' value) := by
  unfold Eval.traceValue
  rcases hs.tracing with hnone | hsame
  · rw [hnone]
    cases settings.tracing with
    | none => exact pure ()
    | some verbosity => exact textOf_aside fun text => trace_aside settings level _
  · rw [hsame]
    cases settings.tracing with
    | none => exact pure ()
    | some verbosity =>
      exact (textOf (by omega) value).bind fun text => trace settings settings' level level _ _

theorem traceExpression {settings settings' : Settings} (hs : settings.Quiets settings')
    {room room' : Nat} (hr : room ≤ room') (node node' : Node) (value : Value) :
    Follows S (traceExpression settings room node value)
      (Eval.traceExpression settings' room' node' value) := by
  unfold Eval.traceExpression
  rcases hs.tracing with hnone | hsame
  · rw [hnone]
    cases settings.tracing with
    | none => exact pure ()
    | some verbosity =>
      dsimp only
      split
      · exact textOf_aside fun text => trace_aside settings 4 _
      · exact pure ()
  · rw [hsame]
    cases settings.tracing with
    | none => exact pure ()
    | some verbosity =>
      refine ite ?_ (pure ())
      exact (textOf (by omega) value).bind fun text => trace settings settings' 4 4 _ _

/-! ## Names -/

theorem nameOf (token : Token) : Follows S (nameOf token) (Eval.nameOf token) := by
  unfold Eval.nameOf
  split
  · exact pure _
  · exact broken _

theorem define (scope : Nat) (token : Token) (value : Value) :
    Follows S (define scope token value) (Eval.define scope token value) :=
  (nameOf token).bind fun name => modifyStore fun hs => hs.define scope name value

theorem ownerOf {room room' : Nat} (hr : room ≤ room') (scope : Nat) (token : Token) (name : Name) :
    Follows S (ownerOf room scope token name) (Eval.ownerOf room' scope token name) := by
  refine get fun {m m'} hm => ?_
  rcases hm.store.search hr scope name with hfar | hsame
  · rw [hfar]
    exact overflow
  · rw [hsame]
    split
    · exact pure _
    · exact fault _ _
    · exact overflow

theorem lookup {room room' : Nat} (hr : room ≤ room') (scope : Nat) (token : Token) :
    Follows S (lookup room scope token) (Eval.lookup room' scope token) := by
  refine (nameOf token).bind fun name => (ownerOf hr scope token name).bind fun owner => ?_
  refine get fun hm => ?_
  rw [hm.store.own?]
  exact pure _

theorem rebind {room room' : Nat} (hr : room ≤ room') (scope : Nat) (token : Token) (value : Value) :
    Follows S (rebind room scope token value) (Eval.rebind room' scope token value) :=
  (nameOf token).bind fun name => (ownerOf hr scope token name).bind fun owner =>
    modifyStore fun hs => hs.define owner name value

/-! ## Operators -/

theorem applyUnary (operator : Token) (operand : Value) :
    Follows S (applyUnary operator operand) (Eval.applyUnary operator operand) := by
  unfold Eval.applyUnary
  split
  · exact pure _
  · split
    · exact pure _
    · exact fault _ _
  · exact broken _

theorem add {room room' : Nat} (hr : room ≤ room') (operator : Token) (a b : Value) :
    Follows S (add room operator a b) (Eval.add room' operator a b) := by
  unfold Eval.add
  split
  · exact pure _
  · exact pure _
  · exact (textOf (by omega) _).bind fun _ => pure _
  · exact (textOf (by omega) _).bind fun _ => pure _
  · exact fault _ _

theorem areEqual {room room' : Nat} (hr : room ≤ room') (a b : Value) :
    Follows S (areEqual room a b) (Eval.areEqual room' a b) := by
  refine get fun {m m'} hm => ?_
  cases he : m.store.equal? (room - 1) a b with
  | some result =>
    rw [hm.store.equal? (show room - 1 ≤ room' - 1 by omega) he]
    exact pure result
  | none => exact overflow

theorem arithmetic (operator : Token) (x y : Float) :
    Follows S (arithmetic operator x y) (Eval.arithmetic operator x y) := by
  have divide (operation : Float → Float → Float) :
      Follows S (Eval.divide operation x y) (Eval.divide operation x y) := ite (broken _) (pure _)
  unfold Eval.arithmetic
  split
  · exact pure _
  · exact pure _
  · exact ite (fault _ _) (divide _)
  · exact ite (fault _ _) (divide _)
  · exact pure _
  · exact pure _
  · exact pure _
  · exact pure _
  · exact broken _

theorem applyBinary {room room' : Nat} (hr : room ≤ room') (operator : Token) (a b : Value) :
    Follows S (applyBinary room operator a b) (Eval.applyBinary room' operator a b) := by
  unfold Eval.applyBinary
  split
  · exact (areEqual hr a b).bind fun _ => pure _
  · exact (areEqual hr a b).bind fun _ => pure _
  · exact add hr operator a b
  · split
    · exact arithmetic operator _ _
    · exact fault _ _

/-! ## Indexing -/

theorem position {room room' : Nat} (hr : room ≤ room') (index : Value) (length : Nat)
    (bracket : Token) :
    Follows S (position room index length bracket) (Eval.position room' index length bracket) := by
  unfold Eval.position
  dsimp only
  split
  · exact (textOf (by omega) index).bind fun _ => fault _ _
  · exact ite (pure _) (fault _ _)

theorem itemAt (items : Nat → Option α) (i : Int) :
    Follows S (itemAt items i) (Eval.itemAt items i) := by
  unfold Eval.itemAt
  split
  · split
    · exact pure _
    · exact broken _
  · exact broken _

theorem elementAt {room room' : Nat} (hr : room ≤ room') (container index : Value)
    (bracket : Token) :
    Follows S (elementAt room container index bracket)
      (Eval.elementAt room' container index bracket) := by
  unfold Eval.elementAt
  split
  · refine get fun hm => ?_
    rw [hm.store.elements]
    exact (position hr index _ bracket).bind fun i => itemAt _ i
  · exact (position hr index _ bracket).bind fun i => (itemAt _ i).bind fun _ => pure _
  · exact fault _ _

theorem writeElement {room room' : Nat} (hr : room ≤ room') (container index value : Value)
    (bracket : Token) {replace replace' : Option (Value → Eval Unit)}
    (hreplace : Option.Rel (fun f f' => ∀ value, Follows S (f value) (f' value)) replace replace') :
    Follows S (writeElement room container index value bracket replace)
      (Eval.writeElement room' container index value bracket replace') := by
  cases container with
  | array place =>
    refine get fun hm => ?_
    dsimp only
    rw [hm.store.elements]
    refine (position hr index _ bracket).bind fun i => (itemAt _ i).discard.bind fun _ => ?_
    exact modifyStore fun hs => hs.setElement place i.toNat value
  | string text =>
    refine (position hr index _ bracket).bind fun i => ?_
    cases value with
    | string value =>
      cases hreplace with
      | none => exact fault _ _
      | some hf => exact hf _
    | _ => exact fault _ _
  | _ => exact fault _ _

/-- A place is replaced alike within more room. -/
theorem replacer {room room' : Nat} (hr : room ≤ room') (place : Place) :
    Option.Rel (fun f f' => ∀ value, Follows S (f value) (f' value)) (place.replacer room)
      (place.replacer room') := by
  induction place generalizing room room' with
  | nowhere => exact .none
  | «variable» scope name => exact .some fun value => rebind (by omega) scope name value
  | element container index bracket outer ih =>
    refine .some fun value => ?_
    by_cases hshort : room < 2
    · rw [if_pos hshort]
      exact overflow
    · rw [if_neg hshort, if_neg (by omega)]
      exact writeElement (by omega) container index value bracket (ih (by omega))

theorem storeElement {room room' : Nat} (hr : room ≤ room') (container index value : Value)
    (bracket : Token) (place : Place) :
    Follows S (storeElement room container index value bracket place)
      (Eval.storeElement room' container index value bracket place) :=
  writeElement hr container index value bracket (replacer (by omega) place)

/-! ## Calls and sequences -/

theorem callNative {room room' : Nat} (hr : room ≤ room') (which : Native)
    (arguments : List Value) :
    Follows S (callNative room which arguments) (Eval.callNative room' which arguments) := by
  unfold Eval.callNative
  split
  · refine get fun hm => ?_
    rw [hm.clock]
    exact pure _
  · exact readLine.bind fun _ => pure _
  · split
    · exact pure _
    · refine get fun hm => ?_
      rw [hm.store.elements]
      exact pure _
    · exact stop _
  · exact (textOf hr _).bind fun _ => (textOf hr _).bind fun _ => pure _
  · split
    · exact (modifyStore fun hs => hs.pushElement _ _).bind fun _ => pure _
    · exact stop _
  · exact pure _

theorem atCall (paren : Token) {body body' : Eval Value} (h : Follows S body body') :
    Follows S (atCall paren body) (Eval.atCall paren body') := by
  refine ⟨fun {m m'} hm => ?_⟩
  unfold Eval.atCall
  have hr := h.ends hm
  generalize body m = r at hr
  generalize body' m' = r' at hr
  cases hr with
  | ok hd => exact .ok hd
  | @error stop _ _ hd =>
    cases stop with
    | fault cause token => cases token <;> exact .error hd
    | _ => exact .error hd
  | @exhausted stop _ _ hs =>
    cases stop with
    | fault cause token => cases token <;> exact .exhausted hs
    | overflow => exact .exhausted rfl
    | endless => cases hs
    | broken => cases hs

theorem evaluateAll {R : Node → Node → Prop} {evaluate evaluate' : Node → Eval Value}
    (h : ∀ {node node'}, R node node' → Follows S (evaluate node) (evaluate' node'))
    {nodes nodes' : List Node} (hs : List.Forall₂ R nodes nodes') :
    Follows S (evaluateAll evaluate nodes) (Eval.evaluateAll evaluate' nodes') := by
  induction hs with
  | nil => exact pure []
  | cons hn _ ih => exact (h hn).bind fun _ => ih.bind fun _ => pure _

theorem runAll {execute execute' : Node → Eval Completion}
    (h : ∀ {node node'}, S node node' → Follows S (execute node) (execute' node'))
    {nodes nodes' : List Node} (hs : List.Forall₂ S nodes nodes') :
    Follows S (runAll execute nodes) (Eval.runAll execute' nodes') := by
  induction hs with
  | nil => exact pure _
  | cons hn _ ih =>
    refine (h hn).bind fun completion => ?_
    cases completion with
    | normal => exact ih
    | returned => exact pure _

/-- What is done with the parts of nodes that are no list of parts is not done. -/
theorem parts {R : Node → Node → Prop} {node node' : Node} (h : SameParts R node node')
    {f f' : List Node → Eval α}
    (hf : ∀ {nodes nodes'}, List.Forall₂ R nodes nodes' → Follows S (f nodes) (f' nodes')) :
    Follows S (Eval.parts node >>= f) (Eval.parts node' >>= f') := by
  cases h with
  | sequence hs => exact ⟨fun hm => (hf hs).ends hm⟩
  | other hnone =>
    have hbroken : Eval.parts node = Eval.broken .wrongShape := by
      unfold Eval.parts
      rw [hnone]
    rw [hbroken]
    exact ⟨fun hm => .error hm⟩

theorem loop {condition condition' : Eval Bool} {body body' : Eval Completion}
    (hc : Follows S condition condition') (hb : Follows S body body') (rounds : Nat) :
    Follows S (loop condition body rounds) (Eval.loop condition' body' rounds) := by
  induction rounds with
  | zero => exact stop .endless
  | succ rounds ih =>
    refine hc.bind fun holds => ite (hb.bind fun completion => ?_) (pure _)
    cases completion with
    | normal => exact ih
    | returned => exact pure _

theorem bindAll (scope : Nat) (params : List Token) (arguments : List Value) :
    Follows S (bindAll scope params arguments) (Eval.bindAll scope params arguments) := by
  induction params generalizing arguments with
  | nil => exact pure ()
  | cons param params ih =>
    cases arguments with
    | nil => exact pure ()
    | cons argument arguments => exact (define scope param argument).bind fun _ => ih arguments

end Follows

/-! ## Room -/

/-- Room for a tree, where other room is there for the same tree with up to `gains` fewer groupings in
a row, and `here` fewer around the whole of it. Every grouping takes two steps. -/
structure Ample (gains here room room' : Nat) : Prop where
  around : here ≤ gains
  enough : (2 * gains + 1) * room + 2 * here ≤ room' + 2 * gains

namespace Ample

variable {gains here room room' : Nat}

theorem of_le (h : (2 * gains + 1) * room ≤ room') : Ample gains gains room room' :=
  ⟨Nat.le_refl _, by omega⟩

theorem le (h : Ample gains here room room') : room ≤ room' := by
  have henough := h.enough
  cases room with
  | zero => omega
  | succ room =>
    have hle : room ≤ (2 * gains + 1) * room := Nat.le_mul_of_pos_left _ (by omega)
    rw [Nat.mul_succ] at henough
    omega

/-- Room for the parts, where a step is taken on both sides. -/
theorem down (h : Ample gains here (room + 1) (room' + 1)) : Ample gains gains room room' := by
  have henough := h.enough
  rw [Nat.mul_succ] at henough
  exact of_le (by omega)

theorem fewer (h : Ample gains here (room + 1) room') : Ample gains here room room' := by
  have henough := h.enough
  rw [Nat.mul_succ] at henough
  exact ⟨h.around, by omega⟩

/-- Room for the same trees, where a step is taken on both sides. -/
theorem same (h : Ample gains here (room + 1) (room' + 1)) : Ample gains here room room' :=
  ⟨h.around, by have := h.down.enough; have := h.around; omega⟩

/-- Room inside a grouping that only the second tree has. -/
theorem gained (h : Ample gains (here + 1) room (room' + 2)) : Ample gains here room room' := by
  have haround := h.around
  have henough := h.enough
  exact ⟨by omega, by omega⟩

end Ample

/-! ## The evaluator -/

/-- What steps that have so much room do with trees that differ in groupings. -/
structure FollowsAt (gains : Nat) (E : Nat → Node → Node → Prop) (S : Node → Node → Prop)
    (settings settings' : Settings) (room room' : Nat) : Prop where
  evaluate : ∀ {here node node'} scope, Ample gains here room room' → E here node node' →
    Follows S (evaluate settings room node scope) (Eval.evaluate settings' room' node' scope)
  locate : ∀ {here node node'} scope, Ample gains here room room' → E here node node' →
    Follows S (locate settings room node scope) (Eval.locate settings' room' node' scope)
  call : ∀ callee arguments paren, Ample gains gains room room' →
    Follows S (call settings room callee arguments paren)
      (Eval.call settings' room' callee arguments paren)
  execute : ∀ {node node'} scope, Ample gains gains room room' → S node node' →
    Follows S (execute settings room node scope) (Eval.execute settings' room' node' scope)

/-- A value that an expression gave has a text, if the values of expressions are traced. -/
theorem evaluate_traced {settings : Settings} {room : Nat} {node : Node} {scope : Nat}
    {m m' : Machine} {value : Value} (h : evaluate settings (room + 1) node scope m = .ok value m')
    {verbosity : Nat} (hv : settings.tracing = some verbosity) (hle : 4 ≤ verbosity) :
    ∃ text, m'.store.text? (room - 1) value = some text := by
  rw [evaluate] at h
  obtain ⟨value', m₁, -, h₁⟩ := bind_ok h
  obtain ⟨_, m₂, h₂, h₃⟩ := bind_ok h₁
  obtain ⟨rfl, rfl⟩ := pure_ok h₃
  unfold traceExpression at h₂
  rw [hv] at h₂
  dsimp only at h₂
  rw [if_pos hle] at h₂
  obtain ⟨text, m₃, h₄, h₅⟩ := bind_ok h₂
  rw [textOf_eq] at h₄
  obtain ⟨log, hlog⟩ := trace_ok settings 4 (node.typeName ++ " -> " ++ text) m₃
  rw [hlog] at h₅
  cases h₅
  split at h₄
  · next htext =>
    cases h₄
    exact ⟨text, htext⟩
  · cases h₄

theorem traceExpression_ok {settings : Settings} {room : Nat} {value : Value} {m : Machine}
    (node : Node) (h : ∀ {verbosity}, settings.tracing = some verbosity → 4 ≤ verbosity →
      ∃ text, m.store.text? (room - 1) value = some text) :
    ∃ log, traceExpression settings room node value m = .ok () { m with log } := by
  unfold traceExpression
  cases hv : settings.tracing with
  | none => exact ⟨m.log, rfl⟩
  | some verbosity =>
    by_cases hle : 4 ≤ verbosity
    · obtain ⟨text, ht⟩ := h hv hle
      simp only [hle, if_true]
      rw [textOf_bind, ht]
      exact trace_ok settings 4 _ m
    · simp only [hle, if_false]
      exact ⟨m.log, rfl⟩

namespace FollowsAt

variable {gains : Nat} {E : Nat → Node → Node → Prop} {settings settings' : Settings}
  {room room' here : Nat} {node node' : Node}

/-! ### Groupings on one side -/

/-- A grouping that only the first tree has is one more message. -/
theorem shed {scope : Nat} {p : Eval Value}
    (h : Follows S (Eval.evaluate settings (room + 1) node scope) p) :
    Follows S (Eval.evaluate settings (room + 3) (.grouping node) scope) p := by
  have hmessage (value : Value) : Follows S
      (traceExpression settings (room + 2) (.grouping node) value >>= fun _ => Pure.pure value)
      (Pure.pure value) := by
    have hquiet : settings.Quiets ⟨settings.rounds, none⟩ := ⟨rfl, .inl rfl⟩
    exact (Follows.traceExpression hquiet (Nat.le_refl _) (.grouping node) node value).bind
      fun _ => .pure value
  have hboth := h.bind hmessage
  rwa [bind_pure] at hboth

/-- For a grouping that only the second tree has, the text of the value is built once more, which was
built before within less room. -/
theorem gained (hs : settings.Quiets settings') (hr : room ≤ room' + 2) {scope : Nat}
    (h : Follows S (Eval.evaluate settings (room + 1) node scope)
      (Eval.evaluate settings' (room' + 1) node' scope)) :
    Follows S (Eval.evaluate settings (room + 1) node scope)
      (Eval.evaluate settings' (room' + 3) (.grouping node') scope) := by
  refine ⟨fun {m m'} hm => ?_⟩
  have hends := h.ends hm
  generalize hp : Eval.evaluate settings (room + 1) node scope m = result at hends
  generalize hp' : Eval.evaluate settings' (room' + 1) node' scope m' = result' at hends
  have hinner : Eval.evaluateNode settings' (room' + 2) (.grouping node') scope m' = result' := hp'
  rw [Eval.evaluate]
  cases hends with
  | @ok value m₁ m₁' hd =>
    rw [bind_eq_of_ok hinner]
    have htext : ∀ {verbosity}, settings'.tracing = some verbosity → 4 ≤ verbosity →
        ∃ text, m₁'.store.text? (room' + 2 - 1) value = some text := by
      intro verbosity hv hle
      rcases hs.tracing with hnone | hsame
      · rw [hnone] at hv
        cases hv
      · obtain ⟨text, ht⟩ := evaluate_traced hp (hsame ▸ hv) hle
        exact ⟨text, hd.store.text? (by omega) ht⟩
    obtain ⟨log, hlog⟩ := traceExpression_ok (.grouping node') htext
    rw [bind_eq_of_ok hlog]
    exact .ok (hd.withLog m₁.log log)
  | error hd =>
    rw [bind_eq_of_error hinner]
    exact .error hd
  | exhausted hstop => exact .exhausted hstop

/-! ### Steps on both sides -/

/-- Too little room for any expression. -/
theorem evaluate_short {scope : Nat} {p : Eval Value} (h : room < 3) :
    Follows S (Eval.evaluate settings room node scope) p := by
  match room, h with
  | 0, _ => exact ⟨fun _ => .exhausted rfl⟩
  | 1, _ => exact ⟨fun _ => .exhausted rfl⟩
  | 2, _ => exact ⟨fun _ => .exhausted rfl⟩

theorem evaluate_same (hs : settings.Quiets settings') (hr : room ≤ room') {scope : Nat}
    (h : Follows S (evaluateNode settings room node scope)
      (evaluateNode settings' room' node' scope)) :
    Follows S (Eval.evaluate settings (room + 1) node scope)
      (Eval.evaluate settings' (room' + 1) node' scope) :=
  h.bind fun value => (Follows.traceExpression hs hr node node' value).bind fun _ => .pure value

variable (hE : Regrouping gains E S) (hs : settings.Quiets settings')
  (ih : ∀ {r r'}, r + r' < room + room' → FollowsAt gains E S settings settings' r r')
include hE hs ih

theorem evaluate_step (scope : Nat) (ha : Ample gains here room room') (hn : E here node node') :
    Follows S (Eval.evaluate settings room node scope)
      (Eval.evaluate settings' room' node' scope) := by
  by_cases hshort : room < 3
  · exact evaluate_short hshort
  have hle := ha.le
  obtain ⟨room, rfl⟩ : ∃ r, room = r + 3 := ⟨room - 3, by omega⟩
  obtain ⟨room', rfl⟩ : ∃ r, room' = r + 3 := ⟨room' - 3, by omega⟩
  have ha₂ := ha.down
  have ha₁ := ha₂.down
  have ha₀ := ha₁.down
  have at₁ : FollowsAt gains E S settings settings' (room + 1) (room' + 1) := ih (by omega)
  have at₀ : FollowsAt gains E S settings settings' room room' := ih (by omega)
  cases hE.expression hn with
  | shed _ hinner =>
    have hinside : FollowsAt gains E S settings settings' (room + 1) (room' + 3) := ih (by omega)
    exact shed (hinside.evaluate scope ha.fewer.fewer hinner)
  | gained _ hinner =>
    have hinside : FollowsAt gains E S settings settings' (room + 3) (room' + 1) := ih (by omega)
    exact gained hs (by omega) (hinside.evaluate scope ha.gained hinner)
  | grouping hinner => exact evaluate_same hs (by omega) (at₁.evaluate scope ha₁ hinner)
  | literal => exact evaluate_same hs (by omega) (.pure _)
  | unary hright =>
    refine evaluate_same hs (by omega) ?_
    exact (at₁.evaluate scope ha₁ hright).bind fun right => .applyUnary _ right
  | binary hleft hright =>
    refine evaluate_same hs (by omega) ?_
    refine (at₁.evaluate scope ha₁ hleft).bind fun left => ?_
    exact (at₁.evaluate scope ha₁ hright).bind fun right => .applyBinary (by omega) _ left right
  | logical hleft hright =>
    refine evaluate_same hs (by omega) ?_
    refine (at₁.evaluate scope ha₁ hleft).bind fun left => ?_
    exact .ite (.pure left) (at₁.evaluate scope ha₁ hright)
  | reference => exact evaluate_same hs (by omega) (.lookup (by omega) scope _)
  | assign hvalue =>
    refine evaluate_same hs (by omega) ?_
    refine (at₁.evaluate scope ha₁ hvalue).bind fun value => ?_
    exact (Follows.rebind (by omega) scope _ value).bind fun _ => .pure value
  | call hcallee harguments =>
    refine evaluate_same hs (by omega) ?_
    refine (at₁.evaluate scope ha₁ hcallee).bind fun callee => ?_
    refine Follows.parts harguments fun hall => ?_
    refine (Follows.evaluateAll (fun hn => at₀.evaluate scope ha₀ hn) hall).bind fun values => ?_
    exact at₁.call callee values _ ha₁
  | array helements =>
    refine evaluate_same hs (by omega) ?_
    refine Follows.parts helements fun hall => ?_
    refine (Follows.evaluateAll (fun hn => at₀.evaluate scope ha₀ hn) hall).bind fun values => ?_
    exact .create fun hstore => hstore.newArray values.toArray
  | indexGet htarget hindex =>
    refine evaluate_same hs (by omega) ?_
    refine (at₁.evaluate scope ha₁ htarget).bind fun container => ?_
    exact (at₁.evaluate scope ha₁ hindex).bind fun index => .elementAt (by omega) container index _
  | indexSet htarget hindex hvalue =>
    refine evaluate_same hs (by omega) ?_
    refine (at₁.locate scope ha₁ htarget).bind fun (container, place) => ?_
    refine (at₁.evaluate scope ha₁ hindex).bind fun index => ?_
    refine (at₁.evaluate scope ha₁ hvalue).bind fun value => ?_
    exact (Follows.storeElement (by omega) container index value _ place).bind fun _ => .pure value
  | other hform =>
    refine evaluate_same hs (by omega) ?_
    cases node <;> first | exact .broken _ | cases hform

omit hs in
theorem locate_step (scope : Nat) (ha : Ample gains here room room') (hn : E here node node') :
    Follows S (Eval.locate settings room node scope) (Eval.locate settings' room' node' scope) := by
  cases room with
  | zero => exact .overflow
  | succ room =>
    have hle := ha.le
    obtain ⟨room', rfl⟩ : ∃ r, room' = r + 1 := ⟨room' - 1, by omega⟩
    have ha₀ := ha.down
    have at₀ : FollowsAt gains E S settings settings' room room' := ih (by omega)
    have again := hn
    cases hE.expression hn with
    | shed _ hinner =>
      have hinside : FollowsAt gains E S settings settings' room (room' + 1) := ih (by omega)
      exact hinside.locate scope ha.fewer hinner
    | gained _ hinner =>
      have hinside : FollowsAt gains E S settings settings' (room + 1) room' := ih (by omega)
      have hroom := ha.around
      have henough := ha.enough
      exact hinside.locate scope ⟨by omega, by omega⟩ hinner
    | grouping hinner => exact at₀.locate scope ha₀ hinner
    | reference => exact (Follows.lookup (by omega) scope _).bind fun value => .pure _
    | indexGet htarget hindex =>
      refine (at₀.locate scope ha₀ htarget).bind fun (container, outer) => ?_
      refine (at₀.evaluate scope ha₀ hindex).bind fun index => ?_
      exact (Follows.elementAt (by omega) container index _).bind fun value => .pure _
    | literal | unary | binary | logical | assign | call | array | indexSet =>
      exact (at₀.evaluate scope ha.same again).bind fun value => .pure (value, Place.nowhere)
    | other hform =>
      have hvalue := (at₀.evaluate scope ha.same again).bind fun value =>
        Follows.pure (value, Place.nowhere)
      cases node <;> first | exact hvalue | cases hform

omit hE hs ih in
/-- The body of a function is run in a scope of its own. -/
theorem body (h : FollowsAt gains E S settings settings' room room')
    (ha : Ample gains gains room room') {closure closure' : Closure}
    (hc : closure.Resembles S closure') (arguments : List Value) :
    Follows S
      (do
        let scope ← Eval.create (·.newScope (some closure.scope))
        Eval.bindAll scope closure.params arguments
        let body ← Eval.parts closure.body
        match ← Eval.runAll (fun node => Eval.execute settings room node scope) body with
        | .normal => Pure.pure .nil
        | .returned value _ => Pure.pure value)
      (do
        let scope ← Eval.create (·.newScope (some closure'.scope))
        Eval.bindAll scope closure'.params arguments
        let body ← Eval.parts closure'.body
        match ← Eval.runAll (fun node => Eval.execute settings' room' node scope) body with
        | .normal => Pure.pure .nil
        | .returned value _ => Pure.pure value) := by
  rw [hc.scope, hc.params]
  refine Follows.bind (.create fun hs => hs.newScope _) fun scope => ?_
  refine (Follows.bindAll scope _ arguments).bind fun _ => ?_
  refine Follows.parts hc.body fun hall => ?_
  refine (Follows.runAll (fun hn => h.execute scope ha hn) hall).bind fun completion => ?_
  cases completion with
  | normal => exact .pure _
  | returned => exact .pure _

omit hE hs in
theorem call_step (callee : Value) (arguments : List Value) (paren : Token)
    (ha : Ample gains gains room room') :
    Follows S (Eval.call settings room callee arguments paren)
      (Eval.call settings' room' callee arguments paren) := by
  by_cases hshort : room < 3
  · match room, hshort with
    | 0, _ | 1, _ | 2, _ => exact .overflow
  have hle := ha.le
  obtain ⟨room, rfl⟩ : ∃ r, room = r + 3 := ⟨room - 3, by omega⟩
  obtain ⟨room', rfl⟩ : ∃ r, room' = r + 3 := ⟨room' - 3, by omega⟩
  have ha₀ := ha.down.down.down
  have at₀ : FollowsAt gains E S settings settings' room room' := ih (by omega)
  have arity (cause : Fault) {next next' : Unit → Eval Value} :
      Follows S (Eval.fault cause paren >>= next) (Eval.fault cause paren >>= next') :=
    ⟨fun hm => .error hm⟩
  cases callee with
  | native which =>
    refine .ite (arity _) ?_
    refine (Follows.trace settings settings' 2 2 _ _).bind fun _ => ?_
    exact .atCall paren (.callNative (by omega) which arguments)
  | function place =>
    refine Follows.get fun {m m'} hm => ?_
    have hrel := hm.store.closure? place
    generalize m.store.closures[place]? = closure? at hrel
    generalize m'.store.closures[place]? = closure'? at hrel
    cases hrel with
    | none => exact .fault _ _
    | some hc =>
      dsimp only
      rw [hc.params]
      refine .ite (arity _) ?_
      refine (Follows.trace settings settings' 2 2 _ _).bind fun _ => ?_
      exact .atCall paren (hc.params ▸ at₀.body ha₀ hc arguments)
  | _ => exact .fault _ _

theorem execute_step (scope : Nat) (ha : Ample gains gains room room') (hn : S node node') :
    Follows S (Eval.execute settings room node scope)
      (Eval.execute settings' room' node' scope) := by
  by_cases hshort : room < 2
  · match room, hshort with
    | 0, _ | 1, _ => exact .overflow
  have hle := ha.le
  obtain ⟨room, rfl⟩ : ∃ r, room = r + 2 := ⟨room - 2, by omega⟩
  obtain ⟨room', rfl⟩ : ∃ r, room' = r + 2 := ⟨room' - 2, by omega⟩
  have ha₁ := ha.down
  have ha₀ := ha₁.down
  have at₁ : FollowsAt gains E S settings settings' (room + 1) (room' + 1) := ih (by omega)
  have at₀ : FollowsAt gains E S settings settings' room room' := ih (by omega)
  have optional {node node' : Node} (hn : E gains node node') {next next' : Value → Eval Completion}
      (hnext : ∀ value, Follows S (next value) (next' value)) :
      Follows S
        (if node.isAbsent then Pure.pure .nil >>= next
          else Eval.evaluate settings (room + 1) node scope >>= next)
        (if node'.isAbsent then Pure.pure .nil >>= next'
          else Eval.evaluate settings' (room' + 1) node' scope >>= next') := by
    rw [hE.expression_isAbsent hn]
    exact .ite (hnext .nil) ((at₁.evaluate scope ha₁ hn).bind hnext)
  cases hE.statement hn with
  | expression hinner => exact (at₁.evaluate scope ha₁ hinner).discard.bind fun _ => .pure _
  | print hinner =>
    refine (at₁.evaluate scope ha₁ hinner).bind fun value => ?_
    refine (Follows.textOf (by omega) value).bind fun text => ?_
    exact (Follows.printLine text).bind fun _ => .pure _
  | var hinitializer =>
    refine optional hinitializer fun value => (Follows.define scope _ value).bind fun _ => ?_
    exact (Follows.traceValue hs (by omega) 2 _ _ value).bind fun _ => .pure _
  | block hbody =>
    refine Follows.parts hbody fun hall => ?_
    refine Follows.bind (.create fun hstore => hstore.newScope _) fun inner => ?_
    exact Follows.runAll (fun hn => at₀.execute inner ha₀ hn) hall
  | ifElse hcondition hthen helse =>
    refine (at₁.evaluate scope ha₁ hcondition).bind fun value => ?_
    refine (Follows.traceValue hs (by omega) 3 _ _ value).bind fun _ => ?_
    refine .ite (at₁.execute scope ha₁ hthen) ?_
    rw [hE.statement_isAbsent helse]
    exact .ite (.pure _) (at₁.execute scope ha₁ helse)
  | whileLoop hcondition hbody =>
    unfold Eval.execute
    dsimp only
    rw [hs.rounds]
    refine Follows.loop ?_ (at₁.execute scope ha₁ hbody) _
    refine (at₁.evaluate scope ha₁ hcondition).bind fun value => ?_
    exact (Follows.traceValue hs (by omega) 3 _ _ value).bind fun _ => .pure _
  | function hbody =>
    refine Follows.bind (.create fun hstore => hstore.newClosure ⟨rfl, rfl, hbody, rfl⟩)
      fun function => ?_
    refine (Follows.define scope _ function).bind fun _ => ?_
    exact (Follows.trace settings settings' 2 2 _ _).bind fun _ => .pure _
  | giveBack hvalue => exact optional hvalue fun value => .pure _
  | other hform => cases node <;> first | exact .broken _ | cases hform

end FollowsAt

/-- Every step follows one that has less room on a tree with other groupings. -/
theorem followsAt {gains : Nat} {E : Nat → Node → Node → Prop} (hE : Regrouping gains E S)
    {settings settings' : Settings} (hs : settings.Quiets settings') (room room' : Nat) :
    FollowsAt gains E S settings settings' room room' := by
  -- On the tree with more groupings only the room of one side shrinks, so the sum is what does.
  induction hn : room + room' using Nat.strongRecOn generalizing room room' with
  | ind n ih =>
    have ih' {r r' : Nat} (hlt : r + r' < room + room') :
        FollowsAt gains E S settings settings' r r' := ih (r + r') (by omega) r r' rfl
    exact {
      evaluate := fun scope ha hn => FollowsAt.evaluate_step hE hs ih' scope ha hn
      locate := fun scope ha hn => FollowsAt.locate_step hE ih' scope ha hn
      call := fun callee arguments paren ha => FollowsAt.call_step ih' callee arguments paren ha
      execute := fun scope ha hn => FollowsAt.execute_step hE hs ih' scope ha hn }

/-- Whole programs: one with other groupings follows, if it has room for them. -/
theorem Follows.runProgram {gains : Nat} {E : Nat → Node → Node → Prop} (hE : Regrouping gains E S)
    {settings settings' : Settings} (hs : settings.Quiets settings') {room room' : Nat}
    (hr : (2 * gains + 1) * room ≤ room') {statements statements' : List Node}
    (hall : List.Forall₂ S statements statements') :
    Follows S (runProgram settings room statements)
      (Eval.runProgram settings' room' statements') := by
  induction hall with
  | nil => exact pure ()
  | cons hn _ ih =>
    refine ((followsAt hE hs room room').execute _ (.of_le hr) hn).bind fun completion => ?_
    cases completion with
    | normal => exact ih
    | returned => exact fault _ _

end Eval

end GameScript
