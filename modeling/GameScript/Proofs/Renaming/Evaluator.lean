import GameScript.Proofs.Confinement.Evaluator
import GameScript.Proofs.Regrouping.Evaluator
import GameScript.Proofs.Renaming.Store

/-! # Running where scopes have other numbers

Two machines that hold the same scopes under different numbers do the same with the same tree: they
give the same values, print the same, read the same and stop for the same reason at the same token,
and hold the same scopes afterwards. The scopes that they create meanwhile are added to the renaming.
The second machine needs room for the empty scopes that only it has; it does as the first one does
unless that runs out of room, and may build no texts for the trace where the first one does. -/

namespace GameScript.Eval

variable {α β : Type} {extra : Nat} {w : Renaming}

/-! ## Steps -/

/-- The same end of two steps but for the numbers of scopes, unless the first one runs out of room. -/
inductive Ends (extra : Nat) (w : Renaming) (R : Renaming → α → α → Prop) :
    EStateM.Result Stop Machine α → EStateM.Result Stop Machine α → Prop where
  | ok {w' : Renaming} {a a' : α} {m m' : Machine} : w.Extends w' → m.Renames extra w' m' →
      R w' a a' → Ends extra w R (.ok a m) (.ok a' m')
  | error {w' : Renaming} {stop : Stop} {m m' : Machine} : w.Extends w' → m.Renames extra w' m' →
      Ends extra w R (.error stop m) (.error stop m')
  | exhausted {stop : Stop} {m : Machine} {result : EStateM.Result Stop Machine α} :
      stop.isExhaustion → m.store.Closed → Ends extra w R (.error stop m) result

/-- Results that mention no scopes. -/
abbrev Same : Renaming → α → α → Prop := fun _ a a' => a = a'

/-- The same place, seen from scopes that are alike. -/
inductive Place.Renames (extra : Nat) (w : Renaming) : Place → Place → Prop where
  | nowhere : Place.Renames extra w .nowhere .nowhere
  | variable {i i' : Nat} {name : Token} : w.Alike extra i i' →
      Place.Renames extra w (.variable i name) (.variable i' name)
  | element {container index : Value} {bracket : Token} {outer outer' : Place} :
      Place.Renames extra w outer outer' →
      Place.Renames extra w (.element container index bracket outer)
        (.element container index bracket outer')

theorem Place.Renames.extend {w' : Renaming} {place place' : Place}
    (h : place.Renames extra w place') (hw : w.Extends w') : place.Renames extra w' place' := by
  induction h with
  | nowhere => exact .nowhere
  | «variable» ha => exact .variable (ha.extend hw)
  | element _ ih => exact .element ih

/-- The same value, read from the same place. -/
def SamePlace (extra : Nat) (w : Renaming) (located located' : Value × Place) : Prop :=
  located.1 = located'.1 ∧ located.2.Renames extra w located'.2

/-- The second step ends as the first one does, however many more scopes there are by then. -/
structure Mirrors (extra : Nat) (w : Renaming) (R : Renaming → α → α → Prop) (p p' : Eval α) :
    Prop where
  ends : ∀ {w₁ m m'}, w.Extends w₁ → m.Renames extra w₁ m' → Ends extra w₁ R (p m) (p' m')

theorem Ends.weaken {w₁ : Renaming} {R : Renaming → α → α → Prop}
    {r r' : EStateM.Result Stop Machine α} (hw : w.Extends w₁) (h : Ends extra w₁ R r r') :
    Ends extra w R r r' := by
  cases h with
  | ok hw' hm hr => exact .ok (hw.trans hw') hm hr
  | error hw' hm => exact .error (hw.trans hw') hm
  | exhausted hs hc => exact .exhausted hs hc

/-- A step that ends as another one does shows the same: its streams, the arrays, and the values of all
names that scopes had before. -/
theorem Ends.of_ok {s : Store} {a : α} {m : Machine} {result : EStateM.Result Stop Machine α}
    (h : Ends extra (.identity s) Same (.ok a m) result) :
    ∃ m', result = .ok a m' ∧ m.input = m'.input ∧ m.output = m'.output ∧
      m.store.arrays = m'.store.arrays ∧
      ∀ scope < s.scopes.size, ∀ name, m.store.own? scope name = m'.store.own? scope name := by
  cases h with
  | @ok _ _ a' _ m' hw hm ha =>
    refine ⟨m', by rw [show a = a' from ha], hm.input, hm.output, hm.store.arrays, ?_⟩
    intro scope hscope name
    exact hm.store.own? (hw.pairs (n := 0) ⟨rfl, hscope⟩) name

namespace Mirrors

variable {R : Renaming → α → α → Prop} {Q : Renaming → β → β → Prop} {p p' : Eval α}

theorem extend {w' : Renaming} (h : Mirrors extra w R p p') (hw : w.Extends w') :
    Mirrors extra w' R p p' :=
  ⟨fun hw' hm => h.ends (hw.trans hw') hm⟩

theorem pure {a a' : α} (h : ∀ {w'}, w.Extends w' → R w' a a') :
    Mirrors extra w R (pure a) (Pure.pure a') :=
  ⟨fun {w₁ _ _} hw hm => .ok (.refl w₁) hm (h hw)⟩

theorem same (a : α) : Mirrors extra w Same (Pure.pure a) (Pure.pure a) := pure fun _ => rfl

theorem stop (s : Stop) : Mirrors extra w R (throw s : Eval α) (throw s) :=
  ⟨fun {w₁ _ _} _ hm => .error (.refl w₁) hm⟩

/-- A step without room is followed by any other. -/
theorem overflow : Mirrors extra w R (overflow : Eval α) p' :=
  ⟨fun _ hm => .exhausted rfl hm.store.closed⟩

theorem bind {f f' : α → Eval β} (hp : Mirrors extra w R p p')
    (hf : ∀ {w₁ a a'}, w.Extends w₁ → R w₁ a a' → Mirrors extra w₁ Q (f a) (f' a')) :
    Mirrors extra w Q (p >>= f) (p' >>= f') := by
  refine ⟨fun {w₁ m m'} hw hm => ?_⟩
  have h := hp.ends hw hm
  generalize hr : p m = r at h
  generalize hr' : p' m' = r' at h
  cases h with
  | ok hw' hd ha =>
    rw [bind_eq_of_ok hr, bind_eq_of_ok hr']
    exact ((hf (hw.trans hw') ha).ends (.refl _) hd).weaken hw'
  | error hw' hd =>
    rw [bind_eq_of_error hr, bind_eq_of_error hr']
    exact .error hw' hd
  | exhausted hs hc =>
    rw [bind_eq_of_error hr]
    exact .exhausted hs hc

theorem andThen {f f' : α → Eval β} (hp : Mirrors extra w Same p p')
    (hf : ∀ {w₁} a, w.Extends w₁ → Mirrors extra w₁ Q (f a) (f' a)) :
    Mirrors extra w Q (p >>= f) (p' >>= f') :=
  hp.bind fun {_ a _} hw ha => ha ▸ hf a hw

theorem ite {c : Prop} [Decidable c] {q q' : Eval α} (hp : Mirrors extra w R p p')
    (hq : Mirrors extra w R q q') :
    Mirrors extra w R (if c then p else q) (if c then p' else q') := by
  split
  · exact hp
  · exact hq

theorem discard (h : Mirrors extra w Same p p') :
    Mirrors extra w Same (discard p) (Functor.discard p') :=
  h.andThen fun _ _ => same ()

theorem fault (cause : Fault) (token : Token) :
    Mirrors extra w R (fault cause token : Eval α) (Eval.fault cause token) := stop _

theorem broken (defect : Defect) :
    Mirrors extra w R (broken defect : Eval α) (Eval.broken defect) := stop _

theorem get {f f' : Machine → Eval α}
    (hf : ∀ {w₁ m m'}, w.Extends w₁ → m.Renames extra w₁ m' → Mirrors extra w₁ R (f m) (f' m')) :
    Mirrors extra w R ((get : Eval Machine) >>= f) ((MonadState.get : Eval Machine) >>= f') :=
  ⟨fun hw hm => (hf hw hm).ends (.refl _) hm⟩

theorem modifyGet {f f' : Machine → α × Machine}
    (h : ∀ {w₁ m m'}, w.Extends w₁ → m.Renames extra w₁ m' →
      (f m).1 = (f' m').1 ∧ (f m).2.Renames extra w₁ (f' m').2) :
    Mirrors extra w Same (modifyGet f) (MonadStateOf.modifyGet f') :=
  ⟨fun {w₁ _ _} hw hm => .ok (.refl w₁) (h hw hm).2 (h hw hm).1⟩

theorem modify {f f' : Machine → Machine}
    (h : ∀ {w₁ m m'}, w.Extends w₁ → m.Renames extra w₁ m' → (f m).Renames extra w₁ (f' m')) :
    Mirrors extra w Same (modify f) (modify f') :=
  ⟨fun {w₁ _ _} hw hm => .ok (.refl w₁) (h hw hm) rfl⟩

theorem modifyStore {f f' : Store → Store}
    (h : ∀ {w₁ s s'}, w.Extends w₁ → s.Renames extra w₁ s' → (f s).Renames extra w₁ (f' s')) :
    Mirrors extra w Same (modifyStore f) (Eval.modifyStore f') :=
  modify fun hw hm => hm.withStore (h hw hm.store)

theorem create {f f' : Store → α × Store}
    (h : ∀ {w₁ s s'}, w.Extends w₁ → s.Renames extra w₁ s' →
      (f s).1 = (f' s').1 ∧ (f s).2.Renames extra w₁ (f' s').2) :
    Mirrors extra w Same (create f) (Eval.create f') :=
  modifyGet fun hw hm => ⟨(h hw hm.store).1, hm.withStore (h hw hm.store).2⟩

/-! ## Scopes -/

/-- New scopes inside of scopes that are alike stand for each other. -/
theorem inScope {n i i' : Nat} (ha : w.Alike n i i') {f f' : Nat → Eval β}
    (hf : ∀ {w₁ j j'}, w.Extends w₁ → w₁.pairs n j j' → Mirrors extra w₁ Q (f j) (f' j')) :
    Mirrors extra w Q (Eval.create (·.newScope (some i)) >>= f)
      (Eval.create (·.newScope (some i')) >>= f') := by
  refine ⟨fun {w₁ m m'} hw hm => ?_⟩
  have hstore := hm.store.newScope (.some (ha.extend hw))
  have hnew := w₁.extends_pair n (m.store.newScope (some i)).1 (m'.store.newScope (some i')).1
  have hends := (hf (hw.trans hnew) (.inr ⟨rfl, rfl, rfl⟩)).ends (.refl _) (hm.withStore hstore)
  exact hends.weaken hnew

/-- A new scope that only the first step creates. -/
theorem inScopeLeft {k i i' : Nat} (ha : w.Alike k i i') {f : Nat → Eval β} {q : Eval β}
    (hf : ∀ {w₁ j}, w.Extends w₁ → w₁.left j i → Mirrors extra w₁ Q (f j) q) :
    Mirrors extra w Q (Eval.create (·.newScope (some i)) >>= f) q := by
  refine ⟨fun {w₁ m m'} hw hm => ?_⟩
  have hstore := hm.store.newLeft (hm.store.lt_of_alike (ha.extend hw))
  have hnew := w₁.extends_insertLeft (m.store.newScope (some i)).1 i
  have hends := (hf (hw.trans hnew) (.inr ⟨rfl, rfl⟩)).ends (.refl _) (hm.withStore hstore)
  exact hends.weaken hnew

/-- A new scope that only the second step creates. -/
theorem inScopeRight (i' : Nat) {q : Eval β} {f' : Nat → Eval β}
    (hf : ∀ {w₁ j'}, w.Extends w₁ → w₁.right j' i' → Mirrors extra w₁ Q q (f' j')) :
    Mirrors extra w Q q (Eval.create (·.newScope (some i')) >>= f') := by
  refine ⟨fun {w₁ m m'} hw hm => ?_⟩
  have hstore := hm.store.newRight i'
  have hnew := w₁.extends_insertRight (m'.store.newScope (some i')).1 i'
  have hends := (hf (hw.trans hnew) (.inr ⟨rfl, rfl⟩)).ends (.refl _) (hm.withStore hstore)
  exact hends.weaken hnew

/-! ## Text and streams -/

theorem printLine (text : String) : Mirrors extra w Same (printLine text) (Eval.printLine text) :=
  modify fun _ hm => ⟨hm.store, hm.input, by simp only [hm.output], hm.clock⟩

theorem readLine : Mirrors extra w Same readLine Eval.readLine := by
  refine modifyGet fun {w₁ m m'} _ hm => ?_
  rw [hm.input]
  split
  · exact ⟨rfl, hm⟩
  · exact ⟨rfl, hm.store, rfl, hm.output, hm.clock⟩

theorem textOf {room room' : Nat} (hr : room ≤ room') (value : Value) :
    Mirrors extra w Same (textOf room value) (Eval.textOf room' value) := by
  refine get fun {w₁ m m'} _ hm => ?_
  cases ht : m.store.text? room value with
  | some text =>
    rw [hm.store.text? hr ht]
    exact same text
  | none => exact overflow

/-- A text that only the first step builds. -/
theorem textOf_aside {room : Nat} {value : Value} {f : String → Eval α}
    (hf : ∀ text, Mirrors extra w R (f text) p') :
    Mirrors extra w R (Eval.textOf room value >>= f) p' := by
  refine ⟨fun {w₁ m m'} hw hm => ?_⟩
  rw [textOf_bind]
  cases m.store.text? room value with
  | some text => exact (hf text).ends hw hm
  | none => exact .exhausted rfl hm.store.closed

/-! ## Traces -/

theorem trace (settings settings' : Settings) (level level' : Nat) (message message' : String) :
    Mirrors extra w Same (trace settings level message) (Eval.trace settings' level' message') := by
  refine ⟨fun {w₁ m m'} _ hm => ?_⟩
  obtain ⟨log, hlog⟩ := trace_ok settings level message m
  obtain ⟨log', hlog'⟩ := trace_ok settings' level' message' m'
  rw [hlog, hlog']
  exact .ok (.refl w₁) (hm.withLog log log') rfl

/-- A message that only the first step keeps. -/
theorem trace_aside (settings : Settings) (level : Nat) (message : String) :
    Mirrors extra w Same (Eval.trace settings level message) (Pure.pure ()) := by
  refine ⟨fun {w₁ m m'} _ hm => ?_⟩
  obtain ⟨log, hlog⟩ := trace_ok settings level message m
  rw [hlog]
  exact .ok (.refl w₁) (hm.withLog log m'.log) rfl

theorem traceValue {settings settings' : Settings} (hs : settings.Quiets settings')
    {room room' : Nat} (hr : room ≤ room') (level : Nat) (label : String) (value : Value) :
    Mirrors extra w Same (traceValue settings room level label value)
      (Eval.traceValue settings' room' level label value) := by
  unfold Eval.traceValue
  rcases hs.tracing with hnone | hsame
  · rw [hnone]
    cases settings.tracing with
    | none => exact same ()
    | some verbosity => exact textOf_aside fun text => trace_aside settings level _
  · rw [hsame]
    cases settings.tracing with
    | none => exact same ()
    | some verbosity =>
      exact (textOf (by omega) value).andThen fun text _ => trace settings settings' level level _ _

theorem traceExpression {settings settings' : Settings} (hs : settings.Quiets settings')
    {room room' : Nat} (hr : room ≤ room') (node : Node) (value : Value) :
    Mirrors extra w Same (traceExpression settings room node value)
      (Eval.traceExpression settings' room' node value) := by
  unfold Eval.traceExpression
  rcases hs.tracing with hnone | hsame
  · rw [hnone]
    cases settings.tracing with
    | none => exact same ()
    | some verbosity =>
      dsimp only
      split
      · exact textOf_aside fun text => trace_aside settings 4 _
      · exact same ()
  · rw [hsame]
    cases settings.tracing with
    | none => exact same ()
    | some verbosity =>
      refine ite ?_ (same ())
      exact (textOf (by omega) value).andThen fun text _ => trace settings settings' 4 4 _ _

/-! ## Names -/

theorem nameOf (token : Token) : Mirrors extra w Same (nameOf token) (Eval.nameOf token) := by
  unfold Eval.nameOf
  split
  · exact same _
  · exact broken _

theorem define {n i i' : Nat} (hp : w.pairs n i i') (token : Token) (value : Value) :
    Mirrors extra w Same (define i token value) (Eval.define i' token value) :=
  (nameOf token).andThen fun name hw =>
    modifyStore fun hw' hs => hs.define (hw'.pairs (hw.pairs hp)) name value

section

variable {room room' k i i' : Nat} (hr : 0 < room → room + k ≤ room') (ha : w.Alike k i i')
include hr ha

theorem ownerOf (token : Token) (name : Name) :
    Mirrors extra w (fun w j j' => ∃ n, w.pairs n j j') (ownerOf room i token name)
      (Eval.ownerOf room' i' token name) := by
  refine get fun {w₁ m m'} hw hm => ?_
  have hsearch := hm.store.search (ha.extend hw) hr name
  generalize m.store.search room i name = found at hsearch
  generalize m'.store.search room' i' name = found' at hsearch
  cases hsearch with
  | found hp => exact pure fun hw' => ⟨_, hw'.pairs hp⟩
  | unbound => exact fault _ _
  | tooFar => exact overflow

theorem lookup (token : Token) :
    Mirrors extra w Same (lookup room i token) (Eval.lookup room' i' token) := by
  refine (nameOf token).andThen fun name hw => ?_
  refine (ownerOf hr (ha.extend hw) token name).bind fun hw' ⟨n, hp⟩ => ?_
  refine get fun hw'' hm => ?_
  rw [hm.store.own? (hw''.pairs hp)]
  exact same _

theorem rebind (token : Token) (value : Value) :
    Mirrors extra w Same (rebind room i token value) (Eval.rebind room' i' token value) := by
  refine (nameOf token).andThen fun name hw => ?_
  refine (ownerOf hr (ha.extend hw) token name).bind fun hw' ⟨n, hp⟩ => ?_
  exact modifyStore fun hw'' hs => hs.define (hw''.pairs hp) name value

end

/-! ## Operators -/

theorem applyUnary (operator : Token) (operand : Value) :
    Mirrors extra w Same (applyUnary operator operand) (Eval.applyUnary operator operand) := by
  unfold Eval.applyUnary
  split
  · exact same _
  · split
    · exact same _
    · exact fault _ _
  · exact broken _

theorem add {room room' : Nat} (hr : room ≤ room') (operator : Token) (a b : Value) :
    Mirrors extra w Same (add room operator a b) (Eval.add room' operator a b) := by
  unfold Eval.add
  split
  · exact same _
  · exact same _
  · exact (textOf (by omega) _).andThen fun _ _ => same _
  · exact (textOf (by omega) _).andThen fun _ _ => same _
  · exact fault _ _

theorem areEqual {room room' : Nat} (hr : room ≤ room') (a b : Value) :
    Mirrors extra w Same (areEqual room a b) (Eval.areEqual room' a b) := by
  refine get fun {w₁ m m'} _ hm => ?_
  cases he : m.store.equal? (room - 1) a b with
  | some result =>
    rw [hm.store.equal? (show room - 1 ≤ room' - 1 by omega) he]
    exact same result
  | none => exact overflow

theorem arithmetic (operator : Token) (x y : Float) :
    Mirrors extra w Same (arithmetic operator x y) (Eval.arithmetic operator x y) := by
  have divide (operation : Float → Float → Float) :
      Mirrors extra w Same (Eval.divide operation x y) (Eval.divide operation x y) :=
    ite (broken _) (same _)
  unfold Eval.arithmetic
  split
  · exact same _
  · exact same _
  · exact ite (fault _ _) (divide _)
  · exact ite (fault _ _) (divide _)
  · exact same _
  · exact same _
  · exact same _
  · exact same _
  · exact broken _

theorem applyBinary {room room' : Nat} (hr : room ≤ room') (operator : Token) (a b : Value) :
    Mirrors extra w Same (applyBinary room operator a b) (Eval.applyBinary room' operator a b) := by
  unfold Eval.applyBinary
  split
  · exact (areEqual hr a b).andThen fun _ _ => same _
  · exact (areEqual hr a b).andThen fun _ _ => same _
  · exact add hr operator a b
  · split
    · exact arithmetic operator _ _
    · exact fault _ _

/-! ## Indexing -/

theorem position {room room' : Nat} (hr : room ≤ room') (index : Value) (length : Nat)
    (bracket : Token) :
    Mirrors extra w Same (position room index length bracket)
      (Eval.position room' index length bracket) := by
  unfold Eval.position
  dsimp only
  split
  · exact (textOf (by omega) index).andThen fun _ _ => fault _ _
  · exact ite (same _) (fault _ _)

theorem itemAt (items : Nat → Option α) (i : Int) :
    Mirrors extra w Same (itemAt items i) (Eval.itemAt items i) := by
  unfold Eval.itemAt
  split
  · split
    · exact same _
    · exact broken _
  · exact broken _

theorem elementAt {room room' : Nat} (hr : room ≤ room') (container index : Value)
    (bracket : Token) :
    Mirrors extra w Same (elementAt room container index bracket)
      (Eval.elementAt room' container index bracket) := by
  unfold Eval.elementAt
  split
  · refine get fun _ hm => ?_
    rw [hm.store.elements]
    exact (position hr index _ bracket).andThen fun i _ => itemAt _ i
  · exact (position hr index _ bracket).andThen fun i _ => (itemAt _ i).andThen fun _ _ => same _
  · exact fault _ _

theorem writeElement {room room' : Nat} (hr : room ≤ room') (container index value : Value)
    (bracket : Token) {replace replace' : Option (Value → Eval Unit)}
    (hreplace : Option.Rel (fun f f' => ∀ value, Mirrors extra w Same (f value) (f' value)) replace
      replace') :
    Mirrors extra w Same (writeElement room container index value bracket replace)
      (Eval.writeElement room' container index value bracket replace') := by
  cases container with
  | array place =>
    refine get fun _ hm => ?_
    dsimp only
    rw [hm.store.elements]
    refine (position hr index _ bracket).andThen fun i _ => (itemAt _ i).discard.andThen fun _ _ => ?_
    exact modifyStore fun _ hs => hs.setElement place i.toNat value
  | string text =>
    refine (position hr index _ bracket).andThen fun i hw => ?_
    cases value with
    | string value =>
      cases hreplace with
      | none => exact fault _ _
      | some hf => exact (hf _).extend hw
    | _ => exact fault _ _
  | _ => exact fault _ _

/-- A place is replaced alike within more room. -/
theorem replacer {room room' : Nat} (hr : 0 < room → room + extra ≤ room') {place place' : Place}
    (hplace : place.Renames extra w place') :
    Option.Rel (fun f f' => ∀ value, Mirrors extra w Same (f value) (f' value))
      (place.replacer room) (place'.replacer room') := by
  induction hplace generalizing room room' with
  | nowhere => exact .none
  | «variable» ha => exact .some fun value => rebind (by omega) ha _ value
  | element _ ih =>
    refine .some fun value => ?_
    by_cases hshort : room < 2
    · rw [if_pos hshort]
      exact overflow
    · rw [if_neg hshort, if_neg (by omega)]
      exact writeElement (by omega) _ _ value _ (ih (by omega))

theorem storeElement {room room' : Nat} (hr : room + extra ≤ room') (container index value : Value)
    (bracket : Token) {place place' : Place} (hplace : place.Renames extra w place') :
    Mirrors extra w Same (storeElement room container index value bracket place)
      (Eval.storeElement room' container index value bracket place') :=
  writeElement (by omega) container index value bracket (replacer (by omega) hplace)

/-! ## Calls and sequences -/

theorem callNative {room room' : Nat} (hr : room ≤ room') (which : Native)
    (arguments : List Value) :
    Mirrors extra w Same (callNative room which arguments)
      (Eval.callNative room' which arguments) := by
  unfold Eval.callNative
  split
  · refine get fun _ hm => ?_
    rw [hm.clock]
    exact same _
  · exact readLine.andThen fun _ _ => same _
  · split
    · exact same _
    · refine get fun _ hm => ?_
      rw [hm.store.elements]
      exact same _
    · exact stop _
  · exact (textOf hr _).andThen fun _ _ => (textOf hr _).andThen fun _ _ => same _
  · split
    · exact (modifyStore fun _ hs => hs.pushElement _ _).andThen fun _ _ => same _
    · exact stop _
  · exact same _

theorem atCall (paren : Token) {body body' : Eval Value} (h : Mirrors extra w Same body body') :
    Mirrors extra w Same (atCall paren body) (Eval.atCall paren body') := by
  refine ⟨fun {w₁ m m'} hw hm => ?_⟩
  unfold Eval.atCall
  have hr := h.ends hw hm
  generalize body m = r at hr
  generalize body' m' = r' at hr
  cases hr with
  | ok hw' hd ha => exact .ok hw' hd ha
  | @error _ stop _ _ hw' hd =>
    cases stop with
    | fault cause token => cases token <;> exact .error hw' hd
    | _ => exact .error hw' hd
  | @exhausted stop _ _ hs hc =>
    cases stop with
    | fault cause token => cases token <;> exact .exhausted hs hc
    | overflow => exact .exhausted rfl hc
    | endless => cases hs
    | broken => cases hs

theorem evaluateAll {evaluate evaluate' : Node → Eval Value}
    (h : ∀ node, Mirrors extra w Same (evaluate node) (evaluate' node)) (nodes : List Node) :
    Mirrors extra w Same (evaluateAll evaluate nodes) (Eval.evaluateAll evaluate' nodes) := by
  induction nodes with
  | nil => exact same []
  | cons node _ ih => exact (h node).andThen fun _ hw => (ih.extend hw).andThen fun _ _ => same _

theorem runAll {execute execute' : Node → Eval Completion} {nodes : List Node}
    (h : ∀ node ∈ nodes, Mirrors extra w Same (execute node) (execute' node)) :
    Mirrors extra w Same (runAll execute nodes) (Eval.runAll execute' nodes) := by
  induction nodes with
  | nil => exact same _
  | cons node rest ih =>
    have hrest := ih fun node hn => h node (List.mem_cons_of_mem _ hn)
    refine (h node List.mem_cons_self).andThen fun completion hw => ?_
    cases completion with
    | normal => exact hrest.extend hw
    | returned => exact same _

theorem parts (node : Node) : Mirrors extra w Same (parts node) (Eval.parts node) := by
  unfold Eval.parts
  split
  · exact same _
  · exact broken _

theorem loop {condition condition' : Eval Bool} {body body' : Eval Completion}
    (hc : Mirrors extra w Same condition condition') (hb : Mirrors extra w Same body body')
    (rounds : Nat) :
    Mirrors extra w Same (loop condition body rounds) (Eval.loop condition' body' rounds) := by
  induction rounds with
  | zero => exact stop .endless
  | succ rounds ih =>
    refine hc.andThen fun holds hw => ite ((hb.extend hw).andThen fun completion hw' => ?_) (same _)
    cases completion with
    | normal => exact ih.extend (hw.trans hw')
    | returned => exact same _

theorem bindAll {n i i' : Nat} (hp : w.pairs n i i') (params : List Token) (arguments : List Value) :
    Mirrors extra w Same (bindAll i params arguments) (Eval.bindAll i' params arguments) := by
  induction params generalizing arguments with
  | nil => exact same ()
  | cons param params ih =>
    cases arguments with
    | nil => exact same ()
    | cons argument arguments =>
      exact (define hp param argument).andThen fun _ hw => (ih arguments).extend hw

end Mirrors

/-! ## The evaluator -/

/-- What steps that have so much room do in scopes that are alike. A statement that declares names
needs scopes that stand for each other. -/
structure MirrorsAt (extra : Nat) (settings settings' : Settings) (room room' : Nat) : Prop where
  evaluate : ∀ {w : Renaming} {i i'} node, w.Alike extra i i' →
    Mirrors extra w Same (evaluate settings room node i) (Eval.evaluate settings' room' node i')
  locate : ∀ {w : Renaming} {i i'} node, w.Alike extra i i' →
    Mirrors extra w (SamePlace extra) (locate settings room node i)
      (Eval.locate settings' room' node i')
  call : ∀ {w : Renaming} callee arguments paren,
    Mirrors extra w Same (call settings room callee arguments paren)
      (Eval.call settings' room' callee arguments paren)
  execute : ∀ {w : Renaming} {i i'} node, w.Alike extra i i' →
    node.declared = [] ∨ (∃ n, w.pairs n i i') →
    Mirrors extra w Same (execute settings room node i) (Eval.execute settings' room' node i')

namespace MirrorsAt

variable {settings settings' : Settings} {room room' i i' : Nat}

/-- Too little room for any expression. -/
theorem evaluate_short {node : Node} {p : Eval Value} (h : room < 3) :
    Mirrors extra w Same (Eval.evaluate settings room node i) p := by
  match room, h with
  | 0, _ | 1, _ | 2, _ => exact ⟨fun _ hm => .exhausted rfl hm.store.closed⟩

theorem evaluate_succ (hs : settings.Quiets settings') (hr : room ≤ room') {node : Node}
    (h : Mirrors extra w Same (evaluateNode settings room node i)
      (evaluateNode settings' room' node i')) :
    Mirrors extra w Same (Eval.evaluate settings (room + 1) node i)
      (Eval.evaluate settings' (room' + 1) node i') :=
  h.andThen fun value _ => (Mirrors.traceExpression hs hr node value).andThen fun _ _ => .same value

/-- An expression, from what steps on its parts do. -/
theorem evaluateNode_step (hr : room + extra ≤ room')
    (at₀ : MirrorsAt extra settings settings' room room')
    (at₁ : MirrorsAt extra settings settings' (room + 1) (room' + 1)) (node : Node)
    (ha : w.Alike extra i i') :
    Mirrors extra w Same (evaluateNode settings (room + 2) node i)
      (evaluateNode settings' (room' + 2) node i') := by
  cases node with
  | literal => exact .same _
  | grouping inner => exact at₁.evaluate inner ha
  | «variable» name => exact .lookup (by omega) ha name
  | assign name value =>
    refine (at₁.evaluate value ha).andThen fun value hw => ?_
    exact (Mirrors.rebind (by omega) (ha.extend hw) name value).andThen fun _ _ => .same value
  | unary operator right =>
    exact (at₁.evaluate right ha).andThen fun right _ => .applyUnary operator right
  | binary left operator right =>
    refine (at₁.evaluate left ha).andThen fun a hw => ?_
    refine (at₁.evaluate right (ha.extend hw)).andThen fun b _ => ?_
    exact .applyBinary (by omega) operator a b
  | logical left operator right =>
    refine (at₁.evaluate left ha).andThen fun a hw => ?_
    exact .ite (.same a) (at₁.evaluate right (ha.extend hw))
  | call callee paren arguments =>
    refine (at₁.evaluate callee ha).andThen fun callee hw => ?_
    refine (Mirrors.parts arguments).andThen fun arguments hw' => ?_
    have ha' := ha.extend (hw.trans hw')
    refine (Mirrors.evaluateAll (fun node => at₀.evaluate node ha') arguments).andThen
      fun values _ => ?_
    exact at₁.call callee values paren
  | array bracket elements =>
    refine (Mirrors.parts elements).andThen fun elements hw => ?_
    have ha' := ha.extend hw
    refine (Mirrors.evaluateAll (fun node => at₀.evaluate node ha') elements).andThen
      fun values _ => ?_
    exact .create fun _ hstore => hstore.newArray values.toArray
  | indexGet target bracket index =>
    refine (at₁.evaluate target ha).andThen fun container hw => ?_
    refine (at₁.evaluate index (ha.extend hw)).andThen fun index _ => ?_
    exact .elementAt (by omega) container index bracket
  | indexSet target bracket index value =>
    refine (at₁.locate target ha).bind fun {_ located located'} hw hplace => ?_
    obtain ⟨container, place⟩ := located
    obtain ⟨container', place'⟩ := located'
    obtain ⟨rfl, hplace⟩ := hplace
    refine (at₁.evaluate index (ha.extend hw)).andThen fun index hw' => ?_
    refine (at₁.evaluate value (ha.extend (hw.trans hw'))).andThen fun value hw'' => ?_
    refine (Mirrors.storeElement (by omega) container index value bracket
      (hplace.extend (hw'.trans hw''))).andThen fun _ _ => ?_
    exact .same value
  | _ => exact .broken _

theorem locate_step (hr : room + extra ≤ room')
    (at₀ : MirrorsAt extra settings settings' room room') (node : Node) (ha : w.Alike extra i i') :
    Mirrors extra w (SamePlace extra) (Eval.locate settings (room + 1) node i)
      (Eval.locate settings' (room' + 1) node i') := by
  have computed {p p' : Eval Value} (h : Mirrors extra w Same p p') :
      Mirrors extra w (SamePlace extra) (do Pure.pure (← p, Place.nowhere))
        (do Pure.pure (← p', Place.nowhere)) :=
    h.andThen fun value _ => .pure fun _ => ⟨rfl, .nowhere⟩
  cases node with
  | «variable» name =>
    refine (Mirrors.lookup (by omega) ha name).andThen fun value hw => ?_
    exact .pure fun hw' => ⟨rfl, .variable (ha.extend (hw.trans hw'))⟩
  | indexGet target bracket index =>
    refine (at₀.locate target ha).bind fun {_ located located'} hw hplace => ?_
    obtain ⟨container, outer⟩ := located
    obtain ⟨container', outer'⟩ := located'
    obtain ⟨rfl, hplace⟩ := hplace
    refine (at₀.evaluate index (ha.extend hw)).andThen fun index hw₁ => ?_
    refine (Mirrors.elementAt (by omega) container index bracket).andThen fun value hw₂ => ?_
    exact .pure fun hw₃ => ⟨rfl, .element (hplace.extend ((hw₁.trans hw₂).trans hw₃))⟩
  | grouping inner => exact at₀.locate inner ha
  | _ => exact computed (at₀.evaluate _ ha)

/-- The body of a function is run in a scope of its own. -/
theorem body (at₀ : MirrorsAt extra settings settings' room room') (ha : w.Alike extra i i')
    (params : List Token) (arguments : List Value) (body : Node) :
    Mirrors extra w Same
      (do
        let scope ← Eval.create (·.newScope (some i))
        Eval.bindAll scope params arguments
        let body ← Eval.parts body
        match ← Eval.runAll (fun node => Eval.execute settings room node scope) body with
        | .normal => Pure.pure .nil
        | .returned value _ => Pure.pure value)
      (do
        let scope ← Eval.create (·.newScope (some i'))
        Eval.bindAll scope params arguments
        let body ← Eval.parts body
        match ← Eval.runAll (fun node => Eval.execute settings' room' node scope) body with
        | .normal => Pure.pure .nil
        | .returned value _ => Pure.pure value) := by
  refine Mirrors.inScope ha fun _ hp => ?_
  refine (Mirrors.bindAll hp params arguments).andThen fun _ hw => ?_
  refine (Mirrors.parts body).andThen fun nodes hw' => ?_
  have hp' := hw'.pairs (hw.pairs hp)
  have hnodes := fun node => at₀.execute node (.pair hp' (Nat.le_refl _)) (.inr ⟨_, hp'⟩)
  refine (Mirrors.runAll fun node _ => hnodes node).andThen fun completion _ => ?_
  cases completion with
  | normal => exact .same _
  | returned => exact .same _

theorem call_step (hr : room ≤ room') (at₀ : MirrorsAt extra settings settings' room room')
    (callee : Value) (arguments : List Value) (paren : Token) :
    Mirrors extra w Same (Eval.call settings (room + 3) callee arguments paren)
      (Eval.call settings' (room' + 3) callee arguments paren) := by
  have arity {w : Renaming} (cause : Fault) {next next' : Unit → Eval Value} :
      Mirrors extra w Same (Eval.fault cause paren >>= next) (Eval.fault cause paren >>= next') :=
    ⟨fun {w₁ _ _} _ hm => .error (.refl w₁) hm⟩
  cases callee with
  | native which =>
    refine .ite (arity _) ?_
    refine (Mirrors.trace settings settings' 2 2 _ _).andThen fun _ _ => ?_
    exact .atCall paren (.callNative hr which arguments)
  | function place =>
    refine Mirrors.get fun {w₁ m m'} hw hm => ?_
    have hrel := hm.store.closure? place
    generalize m.store.closures[place]? = closure? at hrel
    generalize m'.store.closures[place]? = closure'? at hrel
    cases hrel with
    | none => exact .fault _ _
    | @some closure closure' hc =>
      obtain ⟨name, params, body, scope⟩ := closure
      obtain ⟨name', params', body', scope'⟩ := closure'
      obtain ⟨rfl, rfl, rfl, ha⟩ := hc
      refine Mirrors.ite (arity _) ?_
      refine (Mirrors.trace settings settings' 2 2 _ _).andThen fun _ hw' => ?_
      exact .atCall paren (at₀.body (ha.extend hw') params arguments body)
  | _ => exact .fault _ _

theorem execute_step (hs : settings.Quiets settings') (hr : room + extra ≤ room')
    (at₀ : MirrorsAt extra settings settings' room room')
    (at₁ : MirrorsAt extra settings settings' (room + 1) (room' + 1)) (node : Node)
    (ha : w.Alike extra i i') (hd : node.declared = [] ∨ ∃ n, w.pairs n i i') :
    Mirrors extra w Same (Eval.execute settings (room + 2) node i)
      (Eval.execute settings' (room' + 2) node i') := by
  have optional (node : Node) {next next' : Value → Eval Completion}
      (hnext : ∀ {w₁} value, w.Extends w₁ → Mirrors extra w₁ Same (next value) (next' value)) :
      Mirrors extra w Same
        (if node.isAbsent then Pure.pure .nil >>= next
          else Eval.evaluate settings (room + 1) node i >>= next)
        (if node.isAbsent then Pure.pure .nil >>= next'
          else Eval.evaluate settings' (room' + 1) node i' >>= next') :=
    .ite (hnext .nil (.refl w)) ((at₁.evaluate node ha).andThen hnext)
  cases node with
  | expression inner => exact (at₁.evaluate inner ha).discard.andThen fun _ _ => .same _
  | print inner =>
    refine (at₁.evaluate inner ha).andThen fun value _ => ?_
    refine (Mirrors.textOf (by omega) value).andThen fun text _ => ?_
    exact (Mirrors.printLine text).andThen fun _ _ => .same _
  | var name initializer =>
    obtain ⟨n, hp⟩ := hd.resolve_left (List.cons_ne_nil _ _)
    refine optional initializer fun value hw => ?_
    refine (Mirrors.define (hw.pairs hp) name value).andThen fun _ _ => ?_
    exact (Mirrors.traceValue hs (by omega) 2 _ value).andThen fun _ _ => .same _
  | block statements =>
    refine (Mirrors.parts statements).andThen fun nodes hw => ?_
    refine Mirrors.inScope (ha.extend hw) fun _ hp => ?_
    exact .runAll fun node _ => at₀.execute node (.pair hp (Nat.le_refl _)) (.inr ⟨_, hp⟩)
  | ifElse condition thenBranch elseBranch =>
    refine (at₁.evaluate condition ha).andThen fun value hw => ?_
    refine (Mirrors.traceValue hs (by omega) 3 _ value).andThen fun _ hw' => ?_
    have hw₂ := hw.trans hw'
    have ha₂ := ha.extend hw₂
    have hp₂ : (∃ n, w.pairs n i i') → ∃ n, _ := fun ⟨n, hp⟩ => ⟨n, hw₂.pairs hp⟩
    refine .ite (at₁.execute thenBranch ha₂ (hd.imp (fun hn => ?_) hp₂)) ?_
    · exact (List.append_eq_nil_iff.mp hn).1
    · refine .ite (.same _) (at₁.execute elseBranch ha₂ (hd.imp (fun hn => ?_) hp₂))
      exact (List.append_eq_nil_iff.mp hn).2
  | whileLoop condition body =>
    unfold Eval.execute
    dsimp only
    rw [hs.rounds]
    refine Mirrors.loop ?_ (at₁.execute body ha hd) _
    refine (at₁.evaluate condition ha).andThen fun value _ => ?_
    exact (Mirrors.traceValue hs (by omega) 3 _ value).andThen fun _ _ => .same _
  | function name params body =>
    obtain ⟨n, hp⟩ := hd.resolve_left (List.cons_ne_nil _ _)
    refine Mirrors.andThen (.create fun hw hstore =>
      hstore.newClosure ⟨rfl, rfl, rfl, ha.extend hw⟩) fun function hw => ?_
    refine (Mirrors.define (hw.pairs hp) name function).andThen fun _ _ => ?_
    exact (Mirrors.trace settings settings' 2 2 _ _).andThen fun _ _ => .same _
  | giveBack keyword value => exact optional value fun value _ => .same _
  | _ => exact .broken _

end MirrorsAt

/-- Every step does in scopes that are alike what one with less room does. -/
theorem mirrorsAt {settings settings' : Settings} (hs : settings.Quiets settings')
    {room room' : Nat} (hr : room + extra ≤ room') :
    MirrorsAt extra settings settings' room room' := by
  induction room using room_induction generalizing room' with
  | zero =>
    exact ⟨fun _ _ => .overflow, fun _ _ => .overflow, fun _ _ _ => .overflow, fun _ _ _ => .overflow⟩
  | one ih₀ =>
    obtain ⟨room', rfl⟩ : ∃ r, room' = r + 1 := ⟨room' - 1, by omega⟩
    have at₀ := ih₀ (show 0 + extra ≤ room' by omega)
    exact ⟨fun _ _ => MirrorsAt.evaluate_short (by omega), at₀.locate_step (by omega),
      fun _ _ _ => .overflow, fun _ _ _ => .overflow⟩
  | two ih₀ ih₁ =>
    obtain ⟨room', rfl⟩ : ∃ r, room' = r + 2 := ⟨room' - 2, by omega⟩
    have at₀ := ih₀ (show 0 + extra ≤ room' by omega)
    have at₁ := ih₁ (show 1 + extra ≤ room' + 1 by omega)
    exact ⟨fun _ _ => MirrorsAt.evaluate_short (by omega), at₁.locate_step (by omega),
      fun _ _ _ => .overflow, at₀.execute_step hs (by omega) at₁⟩
  | more room ih₀ ih₁ ih₂ =>
    obtain ⟨room', rfl⟩ : ∃ r, room' = r + 3 := ⟨room' - 3, by omega⟩
    have at₀ := ih₀ (show room + extra ≤ room' by omega)
    have at₁ := ih₁ (show room + 1 + extra ≤ room' + 1 by omega)
    have at₂ := ih₂ (show room + 2 + extra ≤ room' + 2 by omega)
    exact ⟨fun node ha =>
        MirrorsAt.evaluate_succ hs (by omega) (at₀.evaluateNode_step (by omega) at₁ node ha),
      at₂.locate_step (by omega), at₀.call_step (by omega), at₁.execute_step hs (by omega) at₂⟩

/-- Whole programs, which run in the outermost scope. -/
theorem Mirrors.runProgram {settings settings' : Settings} (hs : settings.Quiets settings')
    {room room' : Nat} (hr : room + extra ≤ room') {n : Nat} (hn : n ≤ extra)
    (hp : w.pairs n Store.globals Store.globals) (statements : List Node) :
    Mirrors extra w Same (runProgram settings room statements)
      (Eval.runProgram settings' room' statements) := by
  induction statements generalizing w with
  | nil => exact same ()
  | cons node _ ih =>
    refine ((mirrorsAt hs hr).execute node (.pair hp hn) (.inr ⟨n, hp⟩)).andThen
      fun completion hw => ?_
    cases completion with
    | normal => exact ih (hw.pairs hp)
    | returned => exact fault _ _

/-! ## Stores that speak of their own scopes only -/

theorem Ends.closed {R : Renaming → α → α → Prop} {p : Eval α} {m : Machine}
    {result : EStateM.Result Stop Machine α} (h : Ends extra w R (p m) result) :
    (after p m).store.Closed := by
  unfold after
  generalize p m = r at h
  cases h with
  | ok _ hm _ => exact hm.store.closed
  | error _ hm => exact hm.store.closed
  | exhausted _ hc => exact hc

/-- A program keeps its store closed, whether it ends or stops. -/
theorem runProgram_closed (settings : Settings) (room : Nat) (statements : List Node) {m : Machine}
    (h : m.store.Closed) : (after (runProgram settings room statements) m).store.Closed := by
  have hmirrors := @Mirrors.runProgram 0 (.identity m.store) settings settings ⟨rfl, .inr rfl⟩ room
    room (Nat.le_refl _) 0 (Nat.le_refl _) ⟨rfl, h.outermost⟩ statements
  exact (hmirrors.ends (.refl _) (.identity h)).closed

end GameScript.Eval
