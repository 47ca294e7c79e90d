import GameScript.Machine.Evaluator
import GameScript.Proofs.Matching.Tree
import GameScript.Proofs.Steps

/-! # Running trees that match

Two machines that hold the same scopes, arrays and streams, and functions that match, do the same
with trees that match, step by step: they give the same values, print the same, read the same, and
stop for the same reason at tokens that match. Nothing is ever read from the trace. -/

namespace GameScript

variable {N T : Token → Token → Prop}

/-- The same function up to its tokens. -/
structure Closure.Matches (N T : Token → Token → Prop) (c c' : Closure) : Prop where
  name : N c.name c'.name
  params : List.Forall₂ N c.params c'.params
  body : Node.Matches N T c.body c'.body
  scope : c.scope = c'.scope

/-- The same store up to the tokens of functions. -/
structure Store.Matches (N T : Token → Token → Prop) (s s' : Store) : Prop where
  scopes : s.scopes = s'.scopes
  arrays : s.arrays = s'.arrays
  closures : List.Forall₂ (Closure.Matches N T) s.closures.toList s'.closures.toList

/-- The same machine up to the tokens of functions and the trace. -/
structure Machine.Matches (N T : Token → Token → Prop) (m m' : Machine) : Prop where
  store : m.store.Matches N T m'.store
  input : m.input = m'.input
  output : m.output = m'.output
  clock : m.clock = m'.clock

/-- The same error, but for the text of an operator. -/
inductive Fault.Matches (T : Token → Token → Prop) : Fault → Fault → Prop where
  | same (cause : Fault) : Fault.Matches T cause cause
  | operator {operator operator' : Token} (left right : Tag) : T operator operator' →
      Fault.Matches T (.operandsNotNumbers operator.text left right)
        (.operandsNotNumbers operator'.text left right)

/-- The same defect, but for the text of an operator. -/
inductive Defect.Matches (T : Token → Token → Prop) : Defect → Defect → Prop where
  | same (defect : Defect) : Defect.Matches T defect defect
  | unary {operator operator' : Token} : T operator operator' →
      Defect.Matches T (.unknownUnary operator.text) (.unknownUnary operator'.text)
  | binary {operator operator' : Token} : T operator operator' →
      Defect.Matches T (.unknownBinary operator.text) (.unknownBinary operator'.text)

/-- The same reason to stop, at tokens that match. -/
inductive Stop.Matches (N T : Token → Token → Prop) : Stop → Stop → Prop where
  | fault {cause cause' : Fault} {token token' : Option Token} : Fault.Matches T cause cause' →
      Option.Rel (fun t t' => N t t' ∨ T t t') token token' →
      Stop.Matches N T (.fault cause token) (.fault cause' token')
  | overflow : Stop.Matches N T .overflow .overflow
  | endless : Stop.Matches N T .endless .endless
  | broken {defect defect' : Defect} : Defect.Matches T defect defect' →
      Stop.Matches N T (.broken defect) (.broken defect')

/-- The same end of a statement. -/
inductive Completion.Matches (T : Token → Token → Prop) : Completion → Completion → Prop where
  | normal : Completion.Matches T .normal .normal
  | returned (value : Value) {keyword keyword' : Token} : T keyword keyword' →
      Completion.Matches T (.returned value keyword) (.returned value keyword')

theorem Fault.Matches.eq (hT : ∀ {t t'}, T t t' → t.text = t'.text)
    {cause cause' : Fault} (h : Fault.Matches T cause cause') : cause = cause' := by
  cases h with
  | same => rfl
  | operator left right ht => rw [hT ht]

theorem Defect.Matches.eq (hT : ∀ {t t'}, T t t' → t.text = t'.text)
    {defect defect' : Defect} (h : Defect.Matches T defect defect') : defect = defect' := by
  cases h with
  | same => rfl
  | unary ht => rw [hT ht]
  | binary ht => rw [hT ht]

theorem Closure.Matches.eq {c c' : Closure} (h : c.Matches Eq Eq c') : c = c' := by
  have hparams : c.params = c'.params := by
    have hall := h.params
    rwa [List.forall₂_eq_eq_eq] at hall
  have hbody : c.body = c'.body := h.body.eq
  cases c
  cases c'
  simp only [Closure.mk.injEq]
  exact ⟨h.name, hparams, hbody, h.scope⟩

theorem Store.Matches.eq {s s' : Store} (h : s.Matches Eq Eq s') : s = s' := by
  have hclosures : s.closures = s'.closures := by
    have hall := h.closures.imp fun _ _ => Closure.Matches.eq
    rwa [List.forall₂_eq_eq_eq, Array.toList_inj] at hall
  cases s
  cases s'
  simp only [Store.mk.injEq]
  exact ⟨h.scopes, h.arrays, hclosures⟩

theorem Machine.Matches.withLog {m m' : Machine} (h : m.Matches N T m')
    (log log' : Array Trace.Entry) :
    Machine.Matches N T { m with log } { m' with log := log' } :=
  ⟨h.store, h.input, h.output, h.clock⟩

theorem Machine.Matches.same (hN : ∀ token, N token token) (hT : ∀ token, T token token)
    (m : Machine) : m.Matches N T m := by
  refine ⟨⟨rfl, rfl, ?_⟩, rfl, rfl, rfl⟩
  refine List.forall₂_same.mpr fun closure _ => ⟨hN _, ?_, .same hN hT _, rfl⟩
  exact List.forall₂_same.mpr fun param _ => hN param

/-- Relations that keep of tokens what running looks at: the lexemes of names, and otherwise the
kinds. -/
structure Neutral (N T : Token → Token → Prop) : Prop where
  name : ∀ {t t'}, N t t' → t.lexeme = t'.lexeme
  kind : ∀ {t t'}, T t t' → t.kind = t'.kind

theorem Neutral.name? (h : Neutral N T) {t t' : Token} (ht : N t t') : t.name? = t'.name? := by
  rw [Token.name?, h.name ht]
  rfl

theorem Neutral.text (h : Neutral N T) {t t' : Token} (ht : N t t') : t.text = t'.text := by
  rw [Token.text, h.name ht]
  rfl

/-! ## Stores -/

namespace Store.Matches

variable {s s' : Store}

theorem closure? (h : s.Matches N T s') (place : Nat) :
    Option.Rel (Closure.Matches N T) s.closures[place]? s'.closures[place]? := by
  have hs := h.closures
  rw [← Array.getElem?_toList, ← Array.getElem?_toList]
  generalize s.closures.toList = cs at hs
  generalize s'.closures.toList = cs' at hs
  induction hs generalizing place with
  | nil => exact .none
  | cons hc _ ih =>
    cases place with
    | zero => exact .some hc
    | succ place => exact ih place

theorem elements (h : s.Matches N T s') (place : Nat) : s.elements place = s'.elements place := by
  rw [Store.elements, h.arrays]
  rfl

theorem owns (h : s.Matches N T s') (name : Name) (scope : Nat) :
    s.owns name scope = s'.owns name scope := by
  rw [Store.owns, h.scopes]
  rfl

theorem own? (h : s.Matches N T s') (scope : Nat) (name : Name) :
    s.own? scope name = s'.own? scope name := by
  rw [Store.own?, h.scopes]
  rfl

theorem chainWithin (h : s.Matches N T s') (fuel scope : Nat) :
    s.chainWithin fuel scope = s'.chainWithin fuel scope := by
  induction fuel generalizing scope with
  | zero => rfl
  | succ fuel ih =>
    rw [Store.chainWithin, Store.chainWithin, h.scopes]
    simp only [ih]

theorem search (h : s.Matches N T s') (room scope : Nat) (name : Name) :
    s.search room scope name = s'.search room scope name := by
  have howns : s.owns name = s'.owns name := funext (h.owns name)
  rw [Store.search, Store.search, h.chainWithin, howns]

theorem text? (hN : Neutral N T) (h : s.Matches N T s') (room : Nat) (value : Value) :
    s.text? room value = s'.text? room value := by
  induction room using room_induction generalizing value with
  | zero | one | two => rfl
  | more room ih =>
    cases value with
    | array place =>
      have hinner : s.text? room = s'.text? room := funext ih
      simp only [Store.text?, h.elements, hinner]
    | function place =>
      have hname : s.closures[place]?.map (·.name.text) = s'.closures[place]?.map (·.name.text) := by
        have hrel := h.closure? place
        generalize s.closures[place]? = closure? at hrel
        generalize s'.closures[place]? = closure'? at hrel
        cases hrel with
        | none => rfl
        | some hc => exact congrArg some (hN.text hc.name)
      simp only [Store.text?, hname]
    | _ => rfl

theorem equal? (h : s.Matches N T s') (room : Nat) (a b : Value) :
    s.equal? room a b = s'.equal? room a b := by
  induction room using room_induction generalizing a b with
  | zero | one | two => rfl
  | more room ih =>
    have hinner : s.equal? room = s'.equal? room := by
      funext a b
      exact ih a b
    simp only [Store.equal?, h.elements, hinner]

/-! ## Changes -/

theorem define (h : s.Matches N T s') (scope : Nat) (name : Name) (value : Value) :
    (s.define scope name value).Matches N T (s'.define scope name value) := by
  refine ⟨?_, h.arrays, h.closures⟩
  rw [Store.define, h.scopes]
  rfl

theorem newScope (h : s.Matches N T s') (parent : Option Nat) :
    (s.newScope parent).1 = (s'.newScope parent).1 ∧
      (s.newScope parent).2.Matches N T (s'.newScope parent).2 := by
  simp only [Store.newScope, h.scopes, true_and]
  exact ⟨rfl, h.arrays, h.closures⟩

theorem newArray (h : s.Matches N T s') (elements : Array Value) :
    (s.newArray elements).1 = (s'.newArray elements).1 ∧
      (s.newArray elements).2.Matches N T (s'.newArray elements).2 := by
  simp only [Store.newArray, h.arrays, true_and]
  exact ⟨h.scopes, rfl, h.closures⟩

theorem newClosure (h : s.Matches N T s') {c c' : Closure} (hc : c.Matches N T c') :
    (s.newClosure c).1 = (s'.newClosure c').1 ∧
      (s.newClosure c).2.Matches N T (s'.newClosure c').2 := by
  have hsize : s.closures.size = s'.closures.size := h.closures.length_eq
  refine ⟨by simp only [Store.newClosure, hsize], h.scopes, h.arrays, ?_⟩
  simp only [Store.newClosure, Array.toList_push]
  exact List.rel_append h.closures (.cons hc .nil)

theorem setElement (h : s.Matches N T s') (array index : Nat) (value : Value) :
    (s.setElement array index value).Matches N T (s'.setElement array index value) := by
  refine ⟨h.scopes, ?_, h.closures⟩
  rw [Store.setElement, h.arrays]
  rfl

theorem pushElement (h : s.Matches N T s') (array : Nat) (value : Value) :
    (s.pushElement array value).Matches N T (s'.pushElement array value) := by
  refine ⟨h.scopes, ?_, h.closures⟩
  rw [Store.pushElement, h.arrays]
  rfl

end Store.Matches

namespace Eval

variable {α β : Type}

/-! ## Steps -/

/-- The same end of a step up to a relation between results. -/
inductive Agrees (N T : Token → Token → Prop) (A : α → α → Prop) :
    EStateM.Result Stop Machine α → EStateM.Result Stop Machine α → Prop where
  | ok {a a' : α} {m m' : Machine} : A a a' → m.Matches N T m' → Agrees N T A (.ok a m) (.ok a' m')
  | error {stop stop' : Stop} {m m' : Machine} : Stop.Matches N T stop stop' → m.Matches N T m' →
      Agrees N T A (.error stop m) (.error stop' m')

/-- Two steps that agree on machines that match. -/
structure Related (N T : Token → Token → Prop) (A : α → α → Prop) (p p' : Eval α) : Prop where
  agrees : ∀ {m m'}, m.Matches N T m' → Agrees N T A (p m) (p' m')

namespace Related

variable {A : α → α → Prop} {B : β → β → Prop} {p p' : Eval α}

theorem pure {a a' : α} (h : A a a') : Related N T A (pure a) (Pure.pure a') :=
  ⟨fun hm => .ok h hm⟩

theorem stop {s s' : Stop} (h : Stop.Matches N T s s') :
    Related N T A (throw s : Eval α) (throw s') := ⟨fun hm => .error h hm⟩

theorem bind {f f' : α → Eval β} (hp : Related N T A p p')
    (hf : ∀ {a a'}, A a a' → Related N T B (f a) (f' a')) :
    Related N T B (p >>= f) (p' >>= f') := by
  refine ⟨fun {m m'} hm => ?_⟩
  have h := hp.agrees hm
  generalize hr : p m = r at h
  generalize hr' : p' m' = r' at h
  cases h with
  | ok ha hd =>
    rw [bind_eq_of_ok hr, bind_eq_of_ok hr']
    exact (hf ha).agrees hd
  | error hs hd =>
    rw [bind_eq_of_error hr, bind_eq_of_error hr']
    exact .error hs hd

/-- After a step with the same result on both sides. -/
theorem next {f f' : α → Eval β} (hp : Related N T Eq p p')
    (hf : ∀ a, Related N T B (f a) (f' a)) : Related N T B (p >>= f) (p' >>= f') :=
  hp.bind fun {a _} h => by cases h; exact hf a

theorem ite {c : Prop} [Decidable c] {q q' : Eval α} (hp : Related N T A p p')
    (hq : Related N T A q q') : Related N T A (if c then p else q) (if c then p' else q') := by
  split
  · exact hp
  · exact hq

theorem discard (h : Related N T A p p') : Related N T Eq (discard p) (Functor.discard p') :=
  h.bind fun _ => pure rfl

theorem fault {cause cause' : Fault} {token token' : Token} (hc : Fault.Matches T cause cause')
    (ht : N token token' ∨ T token token') :
    Related N T A (fault cause token : Eval α) (Eval.fault cause' token') :=
  stop (.fault hc (.some ht))

/-- The same error at a token that is no name. -/
theorem faultAt {token token' : Token} (ht : T token token') (cause : Fault) :
    Related N T A (Eval.fault cause token : Eval α) (Eval.fault cause token') :=
  fault (.same cause) (.inr ht)

theorem overflow : Related N T A (overflow : Eval α) Eval.overflow := stop .overflow

theorem broken (defect : Defect) : Related N T A (broken defect : Eval α) (Eval.broken defect) :=
  stop (.broken (.same defect))

theorem get {f f' : Machine → Eval β}
    (hf : ∀ {m m'}, m.Matches N T m' → Related N T B (f m) (f' m')) :
    Related N T B ((get : Eval Machine) >>= f) ((MonadState.get : Eval Machine) >>= f') :=
  bind (A := Machine.Matches N T) ⟨fun hm => .ok hm hm⟩ hf

theorem modifyGet {f f' : Machine → α × Machine}
    (h : ∀ {m m'}, m.Matches N T m' → A (f m).1 (f' m').1 ∧ (f m).2.Matches N T (f' m').2) :
    Related N T A (modifyGet f) (MonadStateOf.modifyGet f') :=
  ⟨fun hm => .ok (h hm).1 (h hm).2⟩

theorem modify {f f' : Machine → Machine}
    (h : ∀ {m m'}, m.Matches N T m' → (f m).Matches N T (f' m')) :
    Related N T Eq (modify f) (modify f') :=
  ⟨fun hm => .ok rfl (h hm)⟩

theorem modifyStore {f : Store → Store}
    (h : ∀ {s s'}, s.Matches N T s' → (f s).Matches N T (f s')) :
    Related N T Eq (modifyStore f) (Eval.modifyStore f) :=
  modify fun hm => ⟨h hm.store, hm.input, hm.output, hm.clock⟩

theorem create {f f' : Store → α × Store}
    (h : ∀ {s s'}, s.Matches N T s' → (f s).1 = (f' s').1 ∧ (f s).2.Matches N T (f' s').2) :
    Related N T Eq (create f) (Eval.create f') :=
  modifyGet fun hm => ⟨(h hm.store).1, (h hm.store).2, hm.input, hm.output, hm.clock⟩

/-! ## Text and streams -/

theorem printLine (text : String) : Related N T Eq (printLine text) (Eval.printLine text) :=
  modify fun hm => ⟨hm.store, hm.input, by simp only [hm.output], hm.clock⟩

theorem trace (settings : Settings) (level : Nat) (message message' : String) :
    Related N T Eq (trace settings level message) (Eval.trace settings level message') := by
  unfold Eval.trace
  split
  · exact ite (modify fun hm => ⟨hm.store, hm.input, hm.output, hm.clock⟩) (pure rfl)
  · exact pure rfl

theorem readLine : Related N T Eq readLine Eval.readLine := by
  refine modifyGet fun {m m'} hm => ?_
  rw [hm.input]
  split
  · exact ⟨rfl, hm⟩
  · exact ⟨rfl, hm.store, rfl, hm.output, hm.clock⟩

variable (hN : Neutral N T)

include hN

theorem textOf (room : Nat) (value : Value) :
    Related N T Eq (textOf room value) (Eval.textOf room value) := by
  refine get fun hm => ?_
  rw [hm.store.text? hN]
  split
  · exact pure rfl
  · exact overflow

theorem traceValue (settings : Settings) (room level : Nat) (label label' : String) (value : Value) :
    Related N T Eq (traceValue settings room level label value)
      (Eval.traceValue settings room level label' value) := by
  unfold Eval.traceValue
  split
  · exact (textOf hN _ _).next fun _ => trace _ _ _ _
  · exact pure rfl

theorem traceExpression (settings : Settings) (room : Nat) (node node' : Node) (value : Value) :
    Related N T Eq (traceExpression settings room node value)
      (Eval.traceExpression settings room node' value) := by
  unfold Eval.traceExpression
  split
  · exact ite ((textOf hN _ _).next fun _ => trace _ _ _ _) (pure rfl)
  · exact pure rfl

/-! ## Names -/

theorem nameOf {t t' : Token} (ht : N t t') : Related N T Eq (nameOf t) (Eval.nameOf t') := by
  unfold Eval.nameOf
  rw [hN.name? ht]
  split
  · exact pure rfl
  · exact broken _

theorem define {t t' : Token} (ht : N t t') (scope : Nat) (value : Value) :
    Related N T Eq (define scope t value) (Eval.define scope t' value) :=
  (nameOf hN ht).next fun name => modifyStore fun hs => hs.define scope name value

theorem ownerOf {t t' : Token} (ht : N t t') (room scope : Nat) (name : Name) :
    Related N T Eq (ownerOf room scope t name) (Eval.ownerOf room scope t' name) := by
  refine get fun hm => ?_
  rw [hm.store.search]
  split
  · exact pure rfl
  · rw [hN.text ht]
    exact fault (.same _) (.inl ht)
  · exact overflow

theorem lookup {t t' : Token} (ht : N t t') (room scope : Nat) :
    Related N T Eq (lookup room scope t) (Eval.lookup room scope t') := by
  refine (nameOf hN ht).next fun name => (ownerOf hN ht room scope name).next fun owner => ?_
  refine get fun hm => ?_
  rw [hm.store.own?]
  exact pure rfl

theorem rebind {t t' : Token} (ht : N t t') (room scope : Nat) (value : Value) :
    Related N T Eq (rebind room scope t value) (Eval.rebind room scope t' value) :=
  (nameOf hN ht).next fun name => (ownerOf hN ht room scope name).next fun owner =>
    modifyStore fun hs => hs.define owner name value

/-! ## Operators -/

theorem applyUnary {t t' : Token} (ht : T t t') (operand : Value) :
    Related N T Eq (applyUnary t operand) (Eval.applyUnary t' operand) := by
  unfold Eval.applyUnary
  rw [← hN.kind ht]
  split
  · exact pure rfl
  · split
    · exact pure rfl
    · exact faultAt ht _
  · exact stop (.broken (.unary ht))

theorem add {t t' : Token} (ht : T t t') (room : Nat) (a b : Value) :
    Related N T Eq (add room t a b) (Eval.add room t' a b) := by
  unfold Eval.add
  split
  · exact pure rfl
  · exact pure rfl
  · exact (textOf hN _ _).next fun _ => pure rfl
  · exact (textOf hN _ _).next fun _ => pure rfl
  · exact faultAt ht _

omit hN in
theorem areEqual (room : Nat) (a b : Value) :
    Related N T Eq (areEqual room a b) (Eval.areEqual room a b) := by
  refine get fun hm => ?_
  rw [hm.store.equal?]
  split
  · exact pure rfl
  · exact overflow

omit hN in
theorem divide (operation : Float → Float → Float) (x y : Float) :
    Related N T Eq (divide operation x y) (Eval.divide operation x y) :=
  ite (broken _) (pure rfl)

theorem arithmetic {t t' : Token} (ht : T t t') (x y : Float) :
    Related N T Eq (arithmetic t x y) (Eval.arithmetic t' x y) := by
  unfold Eval.arithmetic
  rw [← hN.kind ht]
  split
  · exact pure rfl
  · exact pure rfl
  · exact ite (faultAt ht _) (divide _ _ _)
  · exact ite (faultAt ht _) (divide _ _ _)
  · exact pure rfl
  · exact pure rfl
  · exact pure rfl
  · exact pure rfl
  · exact stop (.broken (.binary ht))

theorem applyBinary {t t' : Token} (ht : T t t') (room : Nat) (a b : Value) :
    Related N T Eq (applyBinary room t a b) (Eval.applyBinary room t' a b) := by
  unfold Eval.applyBinary
  rw [← hN.kind ht]
  split
  · exact (areEqual _ _ _).next fun _ => pure rfl
  · exact (areEqual _ _ _).next fun _ => pure rfl
  · exact add hN ht _ _ _
  · split
    · exact arithmetic hN ht _ _
    · exact fault (.operator _ _ ht) (.inr ht)

/-! ## Indexing -/

theorem position {t t' : Token} (ht : T t t') (room : Nat) (index : Value) (length : Nat) :
    Related N T Eq (position room index length t) (Eval.position room index length t') := by
  unfold Eval.position
  dsimp only
  split
  · exact (textOf hN _ _).next fun _ => faultAt ht _
  · exact ite (pure rfl) (faultAt ht _)

omit hN in
theorem itemAt (items : Nat → Option α) (i : Int) :
    Related N T Eq (itemAt items i) (Eval.itemAt items i) := by
  unfold Eval.itemAt
  split
  · split
    · exact pure rfl
    · exact broken _
  · exact broken _

theorem elementAt {t t' : Token} (ht : T t t') (room : Nat) (container index : Value) :
    Related N T Eq (elementAt room container index t) (Eval.elementAt room container index t') := by
  unfold Eval.elementAt
  split
  · refine get fun hm => ?_
    rw [hm.store.elements]
    exact (position hN ht _ _ _).next fun i => itemAt _ i
  · exact (position hN ht _ _ _).next fun i => (itemAt _ i).next fun _ => pure rfl
  · exact faultAt ht _

theorem writeElement {t t' : Token} (ht : T t t') (room : Nat) (container index value : Value)
    {replace replace' : Option (Value → Eval Unit)}
    (hr : Option.Rel (fun f f' => ∀ value, Related N T Eq (f value) (f' value)) replace replace') :
    Related N T Eq (writeElement room container index value t replace)
      (Eval.writeElement room container index value t' replace') := by
  cases container with
  | array place =>
    refine get fun hm => ?_
    dsimp only
    rw [hm.store.elements]
    refine (position hN ht _ _ _).next fun i => (itemAt _ i).discard.next fun _ => ?_
    exact modifyStore fun hs => hs.setElement place i.toNat value
  | string text =>
    refine (position hN ht _ _ _).next fun i => ?_
    cases value with
    | string value =>
      cases hr with
      | none => exact faultAt ht _
      | some hf => exact hf _
    | _ => exact faultAt ht _
  | _ => exact faultAt ht _

end Related

/-- The same place up to its tokens. -/
inductive Place.Matches (N T : Token → Token → Prop) : Place → Place → Prop where
  | nowhere : Place.Matches N T .nowhere .nowhere
  | name (scope : Nat) {t t' : Token} : N t t' →
      Place.Matches N T (.variable scope t) (.variable scope t')
  | element (container index : Value) {t t' : Token} {outer outer' : Place} : T t t' →
      Place.Matches N T outer outer' →
      Place.Matches N T (.element container index t outer) (.element container index t' outer')

namespace Related

variable (hN : Neutral N T)

include hN

theorem replacer {place place' : Place} (h : Place.Matches N T place place') (room : Nat) :
    Option.Rel (fun f f' => ∀ value, Related N T Eq (f value) (f' value)) (place.replacer room)
      (place'.replacer room) := by
  induction h generalizing room with
  | nowhere => exact .none
  | name scope ht => exact .some fun value => rebind hN ht _ _ value
  | element container index ht _ ih =>
    exact .some fun value => ite overflow (writeElement hN ht _ _ _ _ (ih _))

theorem storeElement {t t' : Token} (ht : T t t') {place place' : Place}
    (hp : Place.Matches N T place place') (room : Nat) (container index value : Value) :
    Related N T Eq (storeElement room container index value t place)
      (Eval.storeElement room container index value t' place') :=
  writeElement hN ht _ _ _ _ (replacer hN hp _)

/-! ## Calls and sequences -/

theorem callNative (room : Nat) (which : Native) (arguments : List Value) :
    Related N T Eq (callNative room which arguments) (Eval.callNative room which arguments) := by
  unfold Eval.callNative
  split
  · refine get fun hm => ?_
    rw [hm.clock]
    exact pure rfl
  · exact readLine.next fun _ => pure rfl
  · split
    · exact pure rfl
    · refine get fun hm => ?_
      rw [hm.store.elements]
      exact pure rfl
    · exact stop (.fault (.same _) .none)
  · exact (textOf hN _ _).next fun _ => (textOf hN _ _).next fun _ => pure rfl
  · split
    · exact next (modifyStore fun hs => hs.pushElement _ _) fun _ => pure rfl
    · exact stop (.fault (.same _) .none)
  · exact pure rfl

omit hN

theorem atCall {t t' : Token} (ht : T t t') {body body' : Eval Value}
    (h : Related N T Eq body body') : Related N T Eq (atCall t body) (Eval.atCall t' body') := by
  refine ⟨fun {m m'} hm => ?_⟩
  unfold Eval.atCall
  have hr := h.agrees hm
  generalize body m = r at hr
  generalize body' m' = r' at hr
  cases hr with
  | ok hv hd => exact .ok hv hd
  | error hs hd =>
    cases hs with
    | fault hc htoken =>
      cases htoken with
      | none => exact .error (.fault hc (.some (.inr ht))) hd
      | some htoken => exact .error (.fault hc (.some htoken)) hd
    | overflow => exact .error (.fault (.same _) (.some (.inr ht))) hd
    | endless => exact .error .endless hd
    | broken hdefect => exact .error (.broken hdefect) hd

theorem parts {node node' : Node} (h : Node.Matches N T node node') :
    Related N T (MatchesAll N T) (parts node) (Eval.parts node') := by
  cases h with
  | sequence hs => exact pure hs
  | _ => exact broken _

theorem evaluateAll {evaluate evaluate' : Node → Eval Value}
    (h : ∀ {node node'}, Node.Matches N T node node' →
      Related N T Eq (evaluate node) (evaluate' node')) {nodes nodes' : List Node}
    (hs : MatchesAll N T nodes nodes') :
    Related N T Eq (evaluateAll evaluate nodes) (Eval.evaluateAll evaluate' nodes') := by
  induction hs with
  | nil => exact pure rfl
  | cons hn _ ih => exact (h hn).next fun _ => ih.next fun _ => pure rfl

theorem runAll {execute execute' : Node → Eval Completion}
    (h : ∀ {node node'}, Node.Matches N T node node' →
      Related N T (Completion.Matches T) (execute node) (execute' node')) {nodes nodes' : List Node}
    (hs : MatchesAll N T nodes nodes') :
    Related N T (Completion.Matches T) (runAll execute nodes) (Eval.runAll execute' nodes') := by
  induction hs with
  | nil => exact pure .normal
  | cons hn _ ih =>
    refine (h hn).bind fun hc => ?_
    cases hc with
    | normal => exact ih
    | returned value hk => exact pure (.returned value hk)

theorem loop {condition condition' : Eval Bool} {body body' : Eval Completion}
    (hc : Related N T Eq condition condition')
    (hb : Related N T (Completion.Matches T) body body') (rounds : Nat) :
    Related N T (Completion.Matches T) (loop condition body rounds)
      (Eval.loop condition' body' rounds) := by
  induction rounds with
  | zero => exact stop .endless
  | succ rounds ih =>
    refine hc.next fun holds => ite (hb.bind fun hd => ?_) (pure .normal)
    cases hd with
    | normal => exact ih
    | returned value hk => exact pure (.returned value hk)

theorem bindAll (hN : Neutral N T) {params params' : List Token}
    (h : List.Forall₂ N params params') (scope : Nat) (arguments : List Value) :
    Related N T Eq (bindAll scope params arguments) (Eval.bindAll scope params' arguments) := by
  induction h generalizing arguments with
  | nil => exact pure rfl
  | cons hp _ ih =>
    cases arguments with
    | nil => exact pure rfl
    | cons argument arguments => exact (define hN hp _ _).next fun _ => ih arguments

end Related

/-! ## The evaluator -/

/-- What the steps that have so much room do with trees that match. -/
structure RelatedAt (N T : Token → Token → Prop) (settings : Settings) (room : Nat) : Prop where
  evaluate : ∀ {node node'} scope, Node.Matches N T node node' →
    Related N T Eq (evaluate settings room node scope) (Eval.evaluate settings room node' scope)
  evaluateNode : ∀ {node node'} scope, Node.Matches N T node node' →
    Related N T Eq (evaluateNode settings room node scope)
      (Eval.evaluateNode settings room node' scope)
  locate : ∀ {node node'} scope, Node.Matches N T node node' →
    Related N T (fun r r' => r.1 = r'.1 ∧ Place.Matches N T r.2 r'.2)
      (locate settings room node scope) (Eval.locate settings room node' scope)
  call : ∀ callee arguments {paren paren'}, T paren paren' →
    Related N T Eq (call settings room callee arguments paren)
      (Eval.call settings room callee arguments paren')
  execute : ∀ {node node'} scope, Node.Matches N T node node' →
    Related N T (Completion.Matches T) (execute settings room node scope)
      (Eval.execute settings room node' scope)

namespace RelatedAt

variable {settings : Settings} {room : Nat} {node node' : Node} (hN : Neutral N T)

include hN

theorem evaluate_succ (h : RelatedAt N T settings room) (hn : Node.Matches N T node node')
    (scope : Nat) : Related N T Eq (Eval.evaluate settings (room + 1) node scope)
      (Eval.evaluate settings (room + 1) node' scope) := by
  rw [Eval.evaluate, Eval.evaluate]
  refine (h.evaluateNode scope hn).next fun value => ?_
  exact (Related.traceExpression hN _ _ _ _ _).next fun _ => .pure rfl

theorem evaluateNode_succ (h₀ : RelatedAt N T settings room)
    (h : RelatedAt N T settings (room + 1)) (hn : Node.Matches N T node node') (scope : Nat) :
    Related N T Eq (Eval.evaluateNode settings (room + 2) node scope)
      (Eval.evaluateNode settings (room + 2) node' scope) := by
  cases hn with
  | literal => exact .pure rfl
  | grouping hi => exact h.evaluate scope hi
  | reference ht => exact Related.lookup hN ht _ _
  | assign ht hv =>
    refine (h.evaluate scope hv).next fun value => ?_
    exact (Related.rebind hN ht _ _ _).next fun _ => .pure rfl
  | unary ho hr => exact (h.evaluate scope hr).next fun value => Related.applyUnary hN ho value
  | binary hl ho hr =>
    refine (h.evaluate scope hl).next fun a => (h.evaluate scope hr).next fun b => ?_
    exact Related.applyBinary hN ho _ a b
  | logical hl ho hr =>
    refine (h.evaluate scope hl).next fun a => ?_
    rw [hN.kind ho]
    exact .ite (.pure rfl) (h.evaluate scope hr)
  | call hc hp ha =>
    refine (h.evaluate scope hc).next fun callee => (Related.parts ha).bind fun hs => ?_
    refine (Related.evaluateAll (fun hn => h₀.evaluate scope hn) hs).next fun values => ?_
    exact h.call callee values hp
  | array hb he =>
    refine (Related.parts he).bind fun hs => ?_
    refine (Related.evaluateAll (fun hn => h₀.evaluate scope hn) hs).next fun values => ?_
    exact .create fun hs => hs.newArray _
  | indexGet ht hb hi =>
    refine (h.evaluate scope ht).next fun container => (h.evaluate scope hi).next fun index => ?_
    exact Related.elementAt hN hb _ container index
  | indexSet ht hb hi hv =>
    refine (h.locate scope ht).bind fun {r r'} hr => ?_
    obtain ⟨container, place⟩ := r
    obtain ⟨container', place'⟩ := r'
    obtain ⟨rfl, hp⟩ := hr
    refine (h.evaluate scope hi).next fun index => (h.evaluate scope hv).next fun value => ?_
    exact (Related.storeElement hN hb hp _ _ _ _).next fun _ => .pure rfl
  | _ => exact .broken _

theorem locate_succ (h : RelatedAt N T settings room) (hn : Node.Matches N T node node')
    (scope : Nat) : Related N T (fun r r' => r.1 = r'.1 ∧ Place.Matches N T r.2 r'.2)
      (Eval.locate settings (room + 1) node scope)
      (Eval.locate settings (room + 1) node' scope) := by
  cases hn with
  | reference ht => exact (Related.lookup hN ht _ _).next fun _ => .pure ⟨rfl, .name scope ht⟩
  | grouping hi => exact h.locate scope hi
  | indexGet ht hb hi =>
    refine (h.locate scope ht).bind fun {r r'} hr => ?_
    obtain ⟨container, outer⟩ := r
    obtain ⟨container', outer'⟩ := r'
    obtain ⟨rfl, ho⟩ := hr
    refine (h.evaluate scope hi).next fun index => ?_
    exact (Related.elementAt hN hb _ _ _).next fun _ => .pure ⟨rfl, .element _ _ hb ho⟩
  | _ =>
    exact (h.evaluate scope (by constructor <;> assumption)).next fun _ => .pure ⟨rfl, .nowhere⟩

/-- The body of a function is run in a scope of its own. -/
theorem body (h : RelatedAt N T settings room) {closure closure' : Closure}
    (hc : closure.Matches N T closure') (arguments : List Value) :
    Related N T Eq
      (do
        let scope ← Eval.create (·.newScope (some closure.scope))
        Eval.bindAll scope closure.params arguments
        let body ← Eval.parts closure.body
        match ← Eval.runAll (fun node => Eval.execute settings room node scope) body with
        | .normal => Pure.pure .nil
        | .returned value _ => Pure.pure value)
      (do
        let scope ← Eval.create (·.newScope (some closure'.scope))
        Eval.bindAll scope closure'.params arguments
        let body ← Eval.parts closure'.body
        match ← Eval.runAll (fun node => Eval.execute settings room node scope) body with
        | .normal => Pure.pure .nil
        | .returned value _ => Pure.pure value) := by
  rw [hc.scope]
  refine Related.next (.create fun hs => hs.newScope _) fun scope => ?_
  refine (Related.bindAll hN hc.params scope arguments).next fun _ => ?_
  refine (Related.parts hc.body).bind fun hs => ?_
  refine (Related.runAll (fun hn => h.execute scope hn) hs).bind fun hd => ?_
  cases hd with
  | normal => exact .pure rfl
  | returned => exact .pure rfl

theorem call_succ (h : RelatedAt N T settings room) {paren paren' : Token} (hp : T paren paren')
    (callee : Value) (arguments : List Value) :
    Related N T Eq (Eval.call settings (room + 3) callee arguments paren)
      (Eval.call settings (room + 3) callee arguments paren') := by
  have arity (cause : Fault) {next next' : Unit → Eval Value} :
      Related N T Eq (Eval.fault cause paren >>= next) (Eval.fault cause paren' >>= next') :=
    (Related.faultAt (A := fun _ _ => False) hp cause).bind nofun
  cases callee with
  | native which =>
    refine .ite (arity _) ?_
    refine (Related.trace _ _ _ _).next fun _ => ?_
    exact Related.atCall hp (Related.callNative hN _ _ _)
  | function place =>
    refine Related.get fun {m m'} hm => ?_
    have hrel := hm.store.closure? place
    generalize m.store.closures[place]? = closure? at hrel
    generalize m'.store.closures[place]? = closure'? at hrel
    cases hrel with
    | none => exact Related.faultAt hp _
    | some hc =>
      dsimp only
      rw [hc.params.length_eq]
      refine .ite (arity _) ?_
      refine (Related.trace _ _ _ _).next fun _ => ?_
      exact Related.atCall hp (h.body hN hc arguments)
  | _ => exact Related.faultAt hp _

theorem execute_succ (h₀ : RelatedAt N T settings room) (h : RelatedAt N T settings (room + 1))
    (hn : Node.Matches N T node node') (scope : Nat) :
    Related N T (Completion.Matches T) (Eval.execute settings (room + 2) node scope)
      (Eval.execute settings (room + 2) node' scope) := by
  -- A part that may be missing is missing on both sides.
  have absent {node node' : Node} (hn : Node.Matches N T node node') :
      node.isAbsent = node'.isAbsent := by
    cases hn <;> rfl
  have optional {node node' : Node} (hn : Node.Matches N T node node')
      {next next' : Value → Eval Completion}
      (hnext : ∀ value, Related N T (Completion.Matches T) (next value) (next' value)) :
      Related N T (Completion.Matches T)
        (if node.isAbsent then Pure.pure .nil >>= next
          else Eval.evaluate settings (room + 1) node scope >>= next)
        (if node'.isAbsent then Pure.pure .nil >>= next'
          else Eval.evaluate settings (room + 1) node' scope >>= next') := by
    rw [absent hn]
    exact .ite (hnext .nil) ((h.evaluate scope hn).next hnext)
  cases hn with
  | expression hi => exact (h.evaluate scope hi).discard.next fun _ => .pure .normal
  | print hi =>
    refine (h.evaluate scope hi).next fun value => (Related.textOf hN _ _).next fun text => ?_
    exact (Related.printLine _).next fun _ => .pure .normal
  | var ht hv =>
    refine optional hv fun value => (Related.define hN ht _ _).next fun _ => ?_
    exact (Related.traceValue hN _ _ _ _ _ _).next fun _ => .pure .normal
  | block hb =>
    refine (Related.parts hb).bind fun hs => ?_
    refine Related.next (.create fun hs => hs.newScope _) fun inner => ?_
    exact Related.runAll (fun hn => h₀.execute inner hn) hs
  | ifElse hc ht he =>
    refine (h.evaluate scope hc).next fun value => ?_
    refine (Related.traceValue hN _ _ _ _ _ _).next fun _ => .ite (h.execute scope ht) ?_
    rw [absent he]
    exact .ite (.pure .normal) (h.execute scope he)
  | whileLoop hc hb =>
    refine Related.loop ?_ (h.execute scope hb) _
    refine (h.evaluate scope hc).next fun value => ?_
    exact (Related.traceValue hN _ _ _ _ _ _).next fun _ => .pure rfl
  | function ht hp hb =>
    refine Related.next (.create fun hs => hs.newClosure ⟨ht, hp, hb, rfl⟩) fun function => ?_
    refine (Related.define hN ht _ _).next fun _ => ?_
    exact (Related.trace _ _ _ _).next fun _ => .pure .normal
  | giveBack hk hv => exact optional hv fun value => .pure (.returned value hk)
  | _ => exact .broken _

end RelatedAt

/-- Every step does the same with trees that match, however much room it has. -/
theorem relatedAt (hN : Neutral N T) (settings : Settings) (room : Nat) :
    RelatedAt N T settings room := by
  induction room using room_induction with
  | zero => exact ⟨fun _ _ => .overflow, fun _ _ => .overflow, fun _ _ => .overflow,
      fun _ _ _ _ _ => .overflow, fun _ _ => .overflow⟩
  | one h₀ =>
    exact ⟨fun scope hn => h₀.evaluate_succ hN hn scope, fun _ _ => .overflow,
      fun scope hn => h₀.locate_succ hN hn scope, fun _ _ _ _ _ => .overflow, fun _ _ => .overflow⟩
  | two h₀ h₁ =>
    exact ⟨fun scope hn => h₁.evaluate_succ hN hn scope,
      fun scope hn => h₀.evaluateNode_succ hN h₁ hn scope,
      fun scope hn => h₁.locate_succ hN hn scope, fun _ _ _ _ _ => .overflow,
      fun scope hn => h₀.execute_succ hN h₁ hn scope⟩
  | more room h₀ h₁ h₂ =>
    exact ⟨fun scope hn => h₂.evaluate_succ hN hn scope,
      fun scope hn => h₁.evaluateNode_succ hN h₂ hn scope,
      fun scope hn => h₂.locate_succ hN hn scope,
      fun callee arguments _ _ hp => h₀.call_succ hN hp callee arguments,
      fun scope hn => h₁.execute_succ hN h₂ hn scope⟩

theorem Related.runProgram (hN : Neutral N T) (settings : Settings) (room : Nat)
    {statements statements' : List Node} (h : MatchesAll N T statements statements') :
    Related N T Eq (runProgram settings room statements)
      (Eval.runProgram settings room statements') := by
  induction h with
  | nil => exact .pure rfl
  | cons hn _ ih =>
    refine ((relatedAt hN settings room).execute _ hn).bind fun hc => ?_
    cases hc with
    | normal => exact ih
    | returned value hk => exact .faultAt hk _

end Eval

end GameScript
