import GameScript.Proofs.Blame.Calls

/-! # Where errors of native functions and loops without end come from

Two errors are raised by native functions only. If a step stops with one of them, then somewhere inside
the step a native function was called that raised it, and the error is at the closing parenthesis of
that call. Whatever the error, it is at some token. A step that stops for a loop without end has a loop
inside that has gone round as often as is allowed. -/

namespace GameScript

/-- The errors that only native functions raise. -/
def Fault.isNative : Fault → Bool
  | .lenArgument _ | .pushArgument _ => true
  | _ => false

/-- No loop without end, no error without a token and none that only native functions raise. -/
def Stop.Plain : Stop → Prop
  | .fault cause token => cause.isNative = false ∧ token.isSome
  | .overflow | .broken _ => True
  | .endless => False

namespace Eval

variable {α β : Type} {P : Stop → Prop} {p : Eval α}

/-- A step that stops for certain reasons only. -/
structure StopsFor (P : Stop → Prop) (p : Eval α) : Prop where
  stop : ∀ {m s m'}, p m = .error s m' → P s

/-- A step that raises no error of a native function and has no loop. -/
abbrev Plain (p : Eval α) : Prop := StopsFor Stop.Plain p

namespace StopsFor

theorem pure (a : α) : StopsFor P (pure a) := ⟨nofun⟩

theorem bind {f : α → Eval β} (hp : StopsFor P p) (hf : ∀ a, StopsFor P (f a)) :
    StopsFor P (p >>= f) := by
  refine ⟨fun h => ?_⟩
  rcases bind_error h with h | ⟨a, m₁, -, h⟩
  · exact hp.stop h
  · exact (hf a).stop h

theorem throw {s : Stop} (h : P s) : StopsFor P (throw s : Eval α) :=
  ⟨fun hs => by cases hs; exact h⟩

theorem get : StopsFor P (get : Eval Machine) := ⟨nofun⟩

theorem modifyGet (f : Machine → α × Machine) : StopsFor P (modifyGet f : Eval α) := ⟨nofun⟩

theorem create (operation : Store → α × Store) : StopsFor P (create operation) := modifyGet _

theorem modifyStore (operation : Store → Store) : StopsFor P (modifyStore operation) := modifyGet _

theorem discard (hp : StopsFor P p) : StopsFor P (Functor.discard p) := by
  show StopsFor P (p >>= fun _ => Pure.pure ())
  exact hp.bind fun _ => pure ()

theorem ite {c : Prop} [Decidable c] {q : Eval α} (hp : StopsFor P p) (hq : StopsFor P q) :
    StopsFor P (if c then p else q) := by
  split
  · exact hp
  · exact hq

theorem textOf (h : P .overflow) (room : Nat) (value : Value) : StopsFor P (textOf room value) := by
  refine get.bind fun m => ?_
  split
  · exact pure _
  · exact throw h

/-- A native function stops with an error without a token, or for want of room. -/
theorem callNative (room : Nat) (which : Native) (arguments : List Value) :
    StopsFor (·.raised?.isSome) (callNative room which arguments) := by
  unfold Eval.callNative
  split
  · exact get.bind fun _ => pure _
  · exact StopsFor.bind (modifyGet _) fun _ => pure _
  · split
    · exact pure _
    · exact get.bind fun _ => pure _
    · exact throw rfl
  · have text (value : Value) : StopsFor (·.raised?.isSome) (Eval.textOf room value) := by
      refine textOf ?_ room value
      rfl
    exact (text _).bind fun _ => (text _).bind fun _ => pure _
  · split
    · exact (modifyStore _).bind fun _ => pure _
    · exact throw rfl
  · exact pure _

end StopsFor

/-! ## Steps that call nothing -/

namespace Plain

theorem fault {cause : Fault} (h : cause.isNative = false) (token : Token) :
    Plain (fault cause token : Eval α) := .throw ⟨h, rfl⟩

theorem overflow : Plain (overflow : Eval α) := .throw trivial

theorem broken (defect : Defect) : Plain (broken defect : Eval α) := .throw trivial

theorem textOf (room : Nat) (value : Value) : Plain (textOf room value) :=
  StopsFor.textOf trivial room value

theorem trace (settings : Settings) (level : Nat) (message : String) :
    Plain (trace settings level message) := by
  unfold Eval.trace
  split
  · exact .ite (.modifyGet _) (.pure _)
  · exact .pure _

theorem traceValue (settings : Settings) (room level : Nat) (label : String) (value : Value) :
    Plain (traceValue settings room level label value) := by
  unfold Eval.traceValue
  split
  · exact (textOf _ _).bind fun _ => trace _ _ _
  · exact .pure _

theorem traceExpression (settings : Settings) (room : Nat) (node : Node) (value : Value) :
    Plain (traceExpression settings room node value) := by
  unfold Eval.traceExpression
  split
  · exact .ite ((textOf _ _).bind fun _ => trace _ _ _) (.pure _)
  · exact .pure _

theorem nameOf (token : Token) : Plain (nameOf token) := by
  unfold Eval.nameOf
  split
  · exact .pure _
  · exact broken _

theorem define (scope : Nat) (token : Token) (value : Value) : Plain (define scope token value) :=
  (nameOf token).bind fun _ => .modifyStore _

theorem ownerOf (room scope : Nat) (token : Token) (name : Name) :
    Plain (ownerOf room scope token name) := by
  refine StopsFor.get.bind fun m => ?_
  split
  · exact .pure _
  · exact fault rfl _
  · exact overflow

theorem lookup (room scope : Nat) (token : Token) : Plain (lookup room scope token) :=
  (nameOf token).bind fun _ => (ownerOf _ _ _ _).bind fun _ => StopsFor.get.bind fun _ => .pure _

theorem rebind (room scope : Nat) (token : Token) (value : Value) :
    Plain (rebind room scope token value) :=
  (nameOf token).bind fun _ => (ownerOf _ _ _ _).bind fun _ => .modifyStore _

theorem bindAll (scope : Nat) (params : List Token) (arguments : List Value) :
    Plain (bindAll scope params arguments) := by
  fun_induction Eval.bindAll scope params arguments with
  | case1 param params argument arguments ih => exact (define _ _ _).bind fun _ => ih
  | case2 => exact .pure _

theorem enter (closure : Closure) (arguments : List Value) : Plain (enter closure arguments) :=
  (StopsFor.create _).bind fun _ => (bindAll _ _ _).bind fun _ => .pure _

theorem applyUnary (operator : Token) (operand : Value) : Plain (applyUnary operator operand) := by
  unfold Eval.applyUnary
  split
  · exact .pure _
  · split
    · exact .pure _
    · exact fault rfl _
  · exact broken _

theorem add (room : Nat) (operator : Token) (a b : Value) : Plain (add room operator a b) := by
  unfold Eval.add
  split
  · exact .pure _
  · exact .pure _
  · exact (textOf _ _).bind fun _ => .pure _
  · exact (textOf _ _).bind fun _ => .pure _
  · exact fault rfl _

theorem areEqual (room : Nat) (a b : Value) : Plain (areEqual room a b) := by
  refine StopsFor.get.bind fun m => ?_
  split
  · exact .pure _
  · exact overflow

theorem divide (operation : Float → Float → Float) (x y : Float) : Plain (divide operation x y) :=
  .ite (broken _) (.pure _)

theorem arithmetic (operator : Token) (x y : Float) : Plain (arithmetic operator x y) := by
  unfold Eval.arithmetic
  split
  case h_3 | h_4 => exact .ite (fault rfl _) (divide _ _ _)
  case h_9 => exact broken _
  all_goals exact .pure _

theorem applyBinary (room : Nat) (operator : Token) (a b : Value) :
    Plain (applyBinary room operator a b) := by
  unfold Eval.applyBinary
  split
  · exact (areEqual _ _ _).bind fun _ => .pure _
  · exact (areEqual _ _ _).bind fun _ => .pure _
  · exact add _ _ _ _
  · split
    · exact arithmetic _ _ _
    · exact fault rfl _

theorem position (room : Nat) (index : Value) (length : Nat) (bracket : Token) :
    Plain (position room index length bracket) := by
  unfold Eval.position
  dsimp only
  split
  · exact (textOf _ _).bind fun _ => fault rfl _
  · exact .ite (.pure _) (fault rfl _)

theorem itemAt (items : Nat → Option α) (i : Int) : Plain (itemAt items i) := by
  unfold Eval.itemAt
  split
  · split
    · exact .pure _
    · exact broken _
  · exact broken _

theorem elementAt (room : Nat) (container index : Value) (bracket : Token) :
    Plain (elementAt room container index bracket) := by
  unfold Eval.elementAt
  split
  · exact StopsFor.get.bind fun _ => (position _ _ _ _).bind fun _ => itemAt _ _
  · exact (position _ _ _ _).bind fun _ => (itemAt _ _).bind fun _ => .pure _
  · exact fault rfl _

theorem writeElement (room : Nat) (container index value : Value) (bracket : Token)
    {replace : Option (Value → Eval Unit)} (hr : ∀ f ∈ replace, ∀ value, Plain (f value)) :
    Plain (writeElement room container index value bracket replace) := by
  unfold Eval.writeElement
  split
  · refine StopsFor.get.bind fun _ => (position _ _ _ _).bind fun _ => ?_
    exact (itemAt _ _).discard.bind fun _ => .modifyStore _
  · refine (position _ _ _ _).bind fun _ => ?_
    split
    · exact hr _ rfl _
    · exact fault rfl _
    · exact fault rfl _
  · exact fault rfl _

theorem replacer (place : Place) (room : Nat) :
    ∀ f ∈ place.replacer room, ∀ value, Plain (f value) := by
  induction place generalizing room with
  | nowhere => nofun
  | «variable» scope name =>
    intro _ h value
    obtain ⟨⟩ := h
    exact rebind _ _ _ _
  | element container index bracket outer ih =>
    intro _ h value
    obtain ⟨⟩ := h
    exact .ite overflow (writeElement _ _ _ _ _ (ih _))

theorem storeElement (room : Nat) (container index value : Value) (bracket : Token) (place : Place) :
    Plain (storeElement room container index value bracket place) :=
  writeElement _ _ _ _ _ (replacer _ _)

end Plain

/-! ## Calls -/

/-- Where inside a step a stop comes from that is not plain, and the machine that it leaves. -/
inductive Stems (settings : Settings) (step : Step) (m : Machine) : Stop → Machine → Prop where
  | raised {cause : Fault} {paren : Token} {m' : Machine} :
      Raises settings step m cause paren → Stems settings step m (.fault cause (some paren)) m'
  /-- A loop has no round left. -/
  | spun {room : Nat} {condition body : Node} {scope : Nat} {m' : Machine} :
      Inside settings step m (.rounds room condition body scope 0) m' →
      Stems settings step m .endless m'

/-- Something that a step does, which was started in a machine `m₀`. If it does not stop for a plain
reason, the reason arose inside the step. -/
structure Told (settings : Settings) (outer : Step) (m₀ : Machine) (p : Eval α) (m : Machine) :
    Prop where
  stop : ∀ {s m'}, p m = .error s m' → s.Plain ∨ Stems settings outer m₀ s m'

/-- A step that stops for other than plain reasons only if they arose inside it. -/
def Step.Traced (settings : Settings) (step : Step) : Prop :=
  ∀ m, Told settings step m (step.run settings) m

variable {settings : Settings} {outer inner : Step} {m₀ m : Machine} {room : Nat}

theorem Stems.within {s : Stop} {m' : Machine} (hw : Within settings outer m₀ inner m)
    (h : Stems settings inner m s m') : Stems settings outer m₀ s m' := by
  cases h with
  | raised h => exact .raised (.within hw h)
  | spun h => exact .spun (.within hw h)

namespace Told

theorem plain (h : Plain p) : Told settings outer m₀ p m := ⟨fun hs => .inl (h.stop hs)⟩

theorem bind {f : α → Eval β} (hp : Told settings outer m₀ p m)
    (hf : ∀ a m', p m = .ok a m' → Told settings outer m₀ (f a) m') :
    Told settings outer m₀ (p >>= f) m := by
  refine ⟨fun h => ?_⟩
  rcases bind_error h with h | ⟨a, m₁, h₁, h⟩
  · exact hp.stop h
  · exact (hf a m₁ h₁).stop h

/-- Something that stops with an error of its own. -/
theorem fault {cause : Fault} {token : Token} {m' : Machine}
    (h : p m = .error (.fault cause (some token)) m') (hc : cause.isNative = false) :
    Told settings outer m₀ p m := by
  refine ⟨fun hs => .inl ?_⟩
  rw [h] at hs
  cases hs
  exact ⟨hc, rfl⟩

/-- The parts of a node, if it has parts. -/
theorem parts {node : Node} {f : List Node → Eval β}
    (hf : ∀ nodes, node = .sequence nodes → Told settings outer m₀ (f nodes) m) :
    Told settings outer m₀ (parts node >>= f) m := by
  cases node with
  | sequence nodes => exact hf nodes rfl
  | _ => exact ⟨fun hs => by cases hs; exact .inl trivial⟩

/-- What a step inside the step does. -/
theorem within (hw : Within settings outer m₀ inner m) (hi : inner.Traced settings) :
    Told settings outer m₀ (inner.run settings) m :=
  ⟨fun h => ((hi m).stop h).imp_right (.within hw)⟩

/-- An expression that counts as `nil` if it is missing. -/
theorem optional {node : Node} {scope : Nat} {next : Value → Eval β}
    (hw : node.isAbsent = false → Within settings outer m₀ (.evaluate room node scope) m)
    (hi : (Step.evaluate room node scope).Traced settings) (hn : ∀ value, Plain (next value)) :
    Told settings outer m₀ (if node.isAbsent then Pure.pure .nil >>= next
      else Eval.evaluate settings room node scope >>= next) m := by
  cases hv : node.isAbsent with
  | true => exact .plain (hn .nil)
  | false => exact (Told.within (hw hv) hi).bind fun value _ _ => .plain (hn value)

theorem test {condition : Node} {scope : Nat}
    (hw : Within settings outer m₀ (.evaluate (room + 1) condition scope) m)
    (hi : (Step.evaluate (room + 1) condition scope).Traced settings) (label : String) :
    Told settings outer m₀ (test settings room label condition scope) m := by
  refine (Told.within hw hi).bind fun _ _ _ => .plain ?_
  exact (Plain.traceValue _ _ _ _ _).bind fun _ => .pure _

/-- A call puts its token to nothing but want of room. -/
theorem atCall {body : Eval Value} (hb : Told settings outer m₀ body m) (paren : Token) :
    Told settings outer m₀ (atCall paren body) m := by
  refine ⟨fun h => ?_⟩
  unfold Eval.atCall at h
  split at h <;> cases h
  -- no error without a token comes from further in
  · rcases hb.stop ‹_› with ⟨-, hn⟩ | hstems
    · cases hn
    · cases hstems
  · exact .inl ⟨rfl, rfl⟩
  · exact hb.stop ‹_›

end Told

/-- What the steps that have so much room do. -/
structure TracedAt (settings : Settings) (room : Nat) : Prop where
  evaluate : ∀ node scope, (Step.evaluate room node scope).Traced settings
  locate : ∀ node scope, (Step.locate room node scope).Traced settings
  execute : ∀ node scope, (Step.execute room node scope).Traced settings

namespace TracedAt

theorem evaluateAll (h : TracedAt settings room) (nodes : List Node) (scope : Nat) :
    (Step.evaluateAll room nodes scope).Traced settings := by
  induction nodes with
  | nil => exact fun m => .plain (.pure _)
  | cons node nodes ih =>
    intro m
    refine (Told.within .item (h.evaluate node scope)).bind fun value m₁ hv => ?_
    exact (Told.within (.items hv) ih).bind fun _ _ _ => .plain (.pure _)

theorem executeAll (h : TracedAt settings room) (nodes : List Node) (scope : Nat) :
    (Step.executeAll room nodes scope).Traced settings := by
  induction nodes with
  | nil => exact fun m => .plain (.pure _)
  | cons node nodes ih =>
    intro m
    refine (Told.within .statement (h.execute node scope)).bind fun completion m₁ hc => ?_
    cases completion with
    | normal => exact Told.within (.statements hc) ih
    | returned => exact .plain (.pure _)

theorem rounds (h : TracedAt settings (room + 1)) (condition body : Node) (scope count : Nat) :
    (Step.rounds room condition body scope count).Traced settings := by
  induction count with
  | zero =>
    refine fun m => ⟨fun hs => .inr ?_⟩
    cases hs
    exact .spun .self
  | succ count ih =>
    intro m
    refine (Told.test .roundTest (h.evaluate condition scope) _).bind fun holds m₁ ht => ?_
    cases holds with
    | false => exact .plain (.pure _)
    | true =>
      refine (Told.within (.roundBody ht) (h.execute body scope)).bind fun completion m₂ hb => ?_
      cases completion with
      | normal => exact Told.within (.roundsLeft ht hb) ih
      | returned => exact .plain (.pure _)

section Call

variable {callee : Node} {arguments : List Node} {scope : Nat} {values : List Value} {m₁ : Machine}

/-- A call of a native function raises what the native function stops with. -/
theorem callNative {which : Native}
    (ho : operands settings (room + 2) callee arguments scope m = .ok (.native which, values) m₁)
    (ha : values.length = which.arity) (paren : Token) :
    Told settings (.evaluate (room + 5) (.call callee paren (.sequence arguments)) scope) m
      (Eval.call settings (room + 3) (.native which) values paren) m₁ := by
  rw [call_native ha]
  refine (Told.plain (Plain.trace _ _ _)).bind fun _ m₂ ht => ⟨fun hs => ?_⟩
  cases hn : Eval.callNative room which values m₂ with
  | ok =>
    rw [Eval.atCall, hn] at hs
    cases hs
  | error stop m₃ =>
    obtain ⟨cause, hraised⟩ := Option.isSome_iff_exists.mp ((StopsFor.callNative _ _ _).stop hn)
    rw [atCall_of_raised hn hraised] at hs
    cases hs
    exact .inr (.raised (.native ho ha ht hn hraised))

/-- A call of a function raises what its statements raise. -/
theorem callFunction (h : TracedAt settings room) {place : Nat} {closure : Closure}
    (ho : operands settings (room + 2) callee arguments scope m = .ok (.function place, values) m₁)
    (hc : m₁.store.closures[place]? = some closure) (ha : values.length = closure.params.length)
    (paren : Token) :
    Told settings (.evaluate (room + 5) (.call callee paren (.sequence arguments)) scope) m
      (Eval.call settings (room + 3) (.function place) values paren) m₁ := by
  constructor
  rw [call_function hc ha]
  refine (Told.bind (.plain (Plain.trace _ _ _)) fun _ m₂ ht => ?_).stop
  refine Told.atCall (.bind (.plain (Plain.enter _ _)) fun inner m₃ he => ?_) paren
  refine Told.parts fun body hb => ?_
  refine (Told.within (.body ho hc ha hb ht he) (h.executeAll body inner)).bind fun _ _ _ => ?_
  exact .plain (.pure _)

theorem call (h : TracedAt settings room) {value : Value}
    (ho : operands settings (room + 2) callee arguments scope m = .ok (value, values) m₁)
    (paren : Token) :
    Told settings (.evaluate (room + 5) (.call callee paren (.sequence arguments)) scope) m
      (Eval.call settings (room + 3) value values paren) m₁ := by
  cases value with
  | native which =>
    by_cases ha : values.length = which.arity
    · exact callNative ho ha paren
    · exact .fault (congrFun (if_pos ha) m₁) rfl
  | function place =>
    cases hc : m₁.store.closures[place]? with
    | none =>
      have hs : Eval.call settings (room + 3) (.function place) values paren m₁ =
          .error (.fault (.notCallable .function) (some paren)) m₁ := by
        rw [Eval.call, get_bind, hc]
        rfl
      exact .fault hs rfl
    | some closure =>
      by_cases ha : values.length = closure.params.length
      · exact h.callFunction ho hc ha paren
      · have hs : Eval.call settings (room + 3) (.function place) values paren m₁ =
            .error (.fault (.arityMismatch closure.params.length values.length) (some paren)) m₁ := by
          rw [Eval.call, get_bind, hc]
          exact congrFun (if_pos ha) m₁
        exact .fault hs rfl
  | _ => exact .fault rfl rfl

end Call

theorem evaluate_succ (ih : ∀ less < room + 2, TracedAt settings less) (node : Node) (scope : Nat) :
    (Step.evaluate (room + 3) node scope).Traced settings := by
  intro m
  have h := ih (room + 1) (by omega)
  have h₀ := ih room (by omega)
  suffices inside : Told settings (.evaluate (room + 3) node scope) m
      (evaluateNode settings (room + 2) node scope) m by
    refine inside.bind fun value _ _ => .plain ?_
    exact (Plain.traceExpression _ _ _ _).bind fun _ => .pure _
  cases node with
  | literal => exact .plain (.pure _)
  | grouping => exact Told.within .grouping (h.evaluate _ _)
  | «variable» => exact .plain (Plain.lookup _ _ _)
  | assign =>
    refine (Told.within .assign (h.evaluate _ _)).bind fun _ _ _ => .plain ?_
    exact (Plain.rebind _ _ _ _).bind fun _ => .pure _
  | unary =>
    exact (Told.within .unary (h.evaluate _ _)).bind fun _ _ _ => .plain (Plain.applyUnary _ _)
  | binary =>
    refine (Told.within .left (h.evaluate _ _)).bind fun _ _ ha => ?_
    refine (Told.within (.right ha) (h.evaluate _ _)).bind fun _ _ _ => ?_
    exact .plain (Plain.applyBinary _ _ _ _)
  | logical left operator right =>
    refine (Told.within .first (h.evaluate _ _)).bind fun a _ ha => ?_
    dsimp only
    cases hgo : if operator.kind = .or then a.truthy else !a.truthy with
    | true => exact .plain (.pure _)
    | false => exact Told.within (.second ha hgo) (h.evaluate _ _)
  | call callee paren arguments =>
    refine (Told.within .callee (h.evaluate _ _)).bind fun value m₁ hv => Told.parts ?_
    rintro arguments rfl
    refine (Told.within (.arguments hv) (h₀.evaluateAll _ _)).bind fun values m₂ hs => ?_
    -- a call takes three steps, without which nothing is called
    match room with
    | 0 | 1 => exact .plain Plain.overflow
    | room + 2 =>
      have ho : operands settings (room + 2) callee arguments scope m = .ok (value, values) m₂ :=
        (bind_eq_of_ok hv).trans (bind_eq_of_ok hs)
      exact (ih room (by omega)).call ho paren
  | array bracket elements =>
    refine Told.parts ?_
    rintro elements rfl
    exact (Told.within .elements (h₀.evaluateAll _ _)).bind fun _ _ _ => .plain (.create _)
  | indexGet =>
    refine (Told.within .target (h.evaluate _ _)).bind fun _ _ ha => ?_
    refine (Told.within (.index ha) (h.evaluate _ _)).bind fun _ _ _ => ?_
    exact .plain (Plain.elementAt _ _ _ _)
  | indexSet =>
    refine (Told.within .storedTarget (h.locate _ _)).bind fun located _ hl => ?_
    refine (Told.within (.storedIndex hl) (h.evaluate _ _)).bind fun _ _ hi => ?_
    refine (Told.within (.storedValue hl hi) (h.evaluate _ _)).bind fun _ _ _ => .plain ?_
    exact (Plain.storeElement _ _ _ _ _ _).bind fun _ => .pure _
  | _ => exact .plain (Plain.broken _)

theorem locate_succ (h : TracedAt settings room) (node : Node) (scope : Nat) :
    (Step.locate (room + 1) node scope).Traced settings := by
  intro m
  cases node with
  | «variable» => exact .plain ((Plain.lookup _ _ _).bind fun _ => .pure _)
  | indexGet =>
    refine (Told.within .locateTarget (h.locate _ _)).bind fun located _ hl => ?_
    refine (Told.within (.locateIndex hl) (h.evaluate _ _)).bind fun _ _ _ => .plain ?_
    exact (Plain.elementAt _ _ _ _).bind fun _ => .pure _
  | grouping inner =>
    change Told settings _ m (Eval.locate settings room inner scope) m
    exact Told.within .locateInner (h.locate _ _)
  | _ =>
    exact (Told.within (.computed rfl) (h.evaluate _ _)).bind fun _ _ _ => .plain (.pure _)

theorem execute_succ (h₀ : TracedAt settings room) (h : TracedAt settings (room + 1)) (node : Node)
    (scope : Nat) : (Step.execute (room + 2) node scope).Traced settings := by
  intro m
  cases node with
  | expression =>
    refine Told.bind ?_ fun _ _ _ => .plain (.pure _)
    exact (Told.within .expression (h.evaluate _ _)).bind fun _ _ _ => .plain (.pure _)
  | print =>
    refine (Told.within .print (h.evaluate _ _)).bind fun _ _ _ => .plain ?_
    exact (Plain.textOf _ _).bind fun _ => (StopsFor.modifyGet _).bind fun _ => .pure _
  | var name initializer =>
    have declared (value : Value) : Plain (do
        define scope name value
        traceValue settings (room + 1) 2 ("declare " ++ name.text ++ " = ") value
        pure Completion.normal) :=
      (Plain.define _ _ _).bind fun _ => (Plain.traceValue _ _ _ _ _).bind fun _ => .pure _
    exact Told.optional .initializer (h.evaluate _ _) declared
  | block statements =>
    refine Told.parts ?_
    rintro statements rfl
    refine Told.bind (.plain (.create _)) fun inner _ hc => ?_
    exact Told.within (.block hc) (h₀.executeAll _ _)
  | ifElse condition thenBranch elseBranch =>
    rw [Step.run, execute_ifElse]
    refine (Told.test .condition (h.evaluate condition scope) _).bind fun holds m₁ ht => ?_
    cases holds with
    | true => exact Told.within (.thenBranch ht) (h.execute _ _)
    | false =>
      cases hv : elseBranch.isAbsent with
      | true => exact .plain (.pure _)
      | false => exact Told.within (.elseBranch ht hv) (h.execute _ _)
  | whileLoop condition body =>
    constructor
    exact (Told.within .loop (h.rounds condition body scope settings.rounds)).stop
  | function =>
    refine .plain ((StopsFor.create _).bind fun _ => ?_)
    exact (Plain.define _ _ _).bind fun _ => (Plain.trace _ _ _).bind fun _ => .pure _
  | giveBack keyword value =>
    exact Told.optional .givenBack (h.evaluate _ _) fun _ => .pure _
  | _ => exact .plain (Plain.broken _)

end TracedAt

/-- Whatever a step has inside has less room, so its errors are known by induction. -/
theorem tracedAt (settings : Settings) (room : Nat) : TracedAt settings room := by
  induction room using Nat.strongRecOn with
  | ind room ih =>
    have value (room : Nat) (node : Node) (p : Eval Value) (hp : Plain p) :
        Plain (p >>= fun value => traceExpression settings room node value >>= fun _ => pure value) :=
      hp.bind fun _ => (Plain.traceExpression _ _ _ _).bind fun _ => .pure _
    match room with
    | 0 => exact ⟨fun _ _ _ => .plain .overflow, fun _ _ _ => .plain .overflow,
        fun _ _ _ => .plain .overflow⟩
    | 1 => exact ⟨fun _ _ _ => .plain (value _ _ _ .overflow), (ih 0 (by omega)).locate_succ,
        fun _ _ _ => .plain .overflow⟩
    | 2 => exact ⟨fun _ _ _ => .plain (value _ _ _ .overflow), (ih 1 (by omega)).locate_succ,
        (ih 0 (by omega)).execute_succ (ih 1 (by omega))⟩
    | room + 3 =>
      have h₁ := ih (room + 1) (by omega)
      have h₂ := ih (room + 2) (by omega)
      exact ⟨TracedAt.evaluate_succ fun less hl => ih less (by omega), h₂.locate_succ,
        h₁.execute_succ h₂⟩

/-- If any step stops for other than plain reasons, they arose inside the step. -/
theorem Step.traced (settings : Settings) (step : Step) : step.Traced settings := by
  cases step with
  | evaluate room => exact (tracedAt settings room).evaluate _ _
  | evaluateAll room => exact (tracedAt settings room).evaluateAll _ _
  | locate room => exact (tracedAt settings room).locate _ _
  | execute room => exact (tracedAt settings room).execute _ _
  | executeAll room => exact (tracedAt settings room).executeAll _ _
  | rounds room => exact (tracedAt settings (room + 1)).rounds _ _ _ _
  | program room statements =>
    induction statements with
    | nil => exact fun m => .plain (.pure _)
    | cons node nodes ih =>
      intro m
      have first := (tracedAt settings room).execute node Store.globals
      refine (Told.within .outermost first).bind fun completion m₁ hc => ?_
      cases completion with
      | normal => exact Told.within (.program hc) ih
      | returned value keyword => exact .plain (.fault rfl _)

/-- Every error of statements is at a token, and one that only native functions raise was raised inside
the statements, by a call that ends with the token. -/
theorem runProgram_fault {statements : List Node} {cause : Fault} {token : Option Token} {m' : Machine}
    (h : runProgram settings room statements m = .error (.fault cause token) m') :
    ∃ blamed, token = some blamed ∧
      (cause.isNative → Raises settings (.program room statements) m cause blamed) := by
  rcases (Step.traced settings (.program room statements) m).stop h with ⟨hc, ht⟩ | hstems
  · obtain ⟨blamed, rfl⟩ := Option.isSome_iff_exists.mp ht
    exact ⟨blamed, rfl, fun hn => by rw [hc] at hn; cases hn⟩
  · cases hstems with
    | raised hraises => exact ⟨_, rfl, fun _ => hraises⟩

/-- Statements stop for a loop without end exactly if a loop inside them has gone round as often as is
allowed. -/
theorem runProgram_endless {statements : List Node} {m' : Machine} :
    runProgram settings room statements m = .error .endless m' ↔
      Spins settings (.program room statements) m m' := by
  constructor
  · intro h
    rcases (Step.traced settings (.program room statements) m).stop h with hplain | hstems
    · exact hplain.elim
    · cases hstems with
      | spun hinside =>
        rcases hinside.goesRound with ⟨_, hrounds, -⟩ | hspins
        · cases hrounds
        · exact hspins
  · exact Spins.stops

end Eval

end GameScript
