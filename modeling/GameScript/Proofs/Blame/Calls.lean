import GameScript.Proofs.Safety.Evaluator

/-! # Errors of native functions and loops without end

A native function does not know where it was called from, so its error has no token until the call
puts one to it. `Within` says which steps run directly inside which others, and in which machine they
start. `Raises` says that somewhere inside a step, however many calls of functions deep, a call
expression calls a native function, and that the native function stops with an error. Such an error
stops the whole step, at the closing parenthesis of that call expression. `Spins` says that somewhere
inside a step a loop goes round as often as is allowed, which stops the whole step as well. -/

namespace GameScript

/-- The error that a call makes of a stop without a token. -/
def Stop.raised? : Stop → Option Fault
  | .fault cause none => some cause
  | .overflow => some .callsTooDeep
  | _ => none

/-- What a call gives whose statements end in this way. -/
def Completion.result : Completion → Value
  | .normal => .nil
  | .returned value _ => value

namespace Eval

/-! ## Parts of steps -/

/-- The value that is called, and then the arguments. -/
def operands (settings : Settings) (room : Nat) (callee : Node) (arguments : List Node) (scope : Nat) :
    Eval (Value × List Value) := do
  let callee ← evaluate settings (room + 1) callee scope
  let values ← evaluateAll (fun node => evaluate settings room node scope) arguments
  pure (callee, values)

/-- Traces a call of something with a name. -/
def announce (settings : Settings) (sort name : String) (arguments : List Value) : Eval Unit :=
  trace settings 2 (sort ++ name ++ "> with " ++ Decimal.integerText arguments.length ++ " arguments")

/-- Binds the parameters of a function in a scope of its own. -/
def enter (closure : Closure) (arguments : List Value) : Eval Nat := do
  let scope ← create (·.newScope (some closure.scope))
  bindAll scope closure.params arguments
  pure scope

/-- Does a condition hold? -/
def test (settings : Settings) (room : Nat) (label : String) (condition : Node) (scope : Nat) :
    Eval Bool := do
  let value ← evaluate settings (room + 1) condition scope
  traceValue settings (room + 1) 3 label value
  pure value.truthy

variable {settings : Settings} {room scope : Nat} {m m₁ m' : Machine} {stop : Stop}

theorem parts_sequence (nodes : List Node) (m : Machine) :
    parts (.sequence nodes) m = .ok nodes m := rfl

theorem evaluateNode_call (callee : Node) (paren : Token) (arguments : List Node) :
    evaluateNode settings (room + 2) (.call callee paren (.sequence arguments)) scope =
      operands settings room callee arguments scope >>= fun called =>
        call settings (room + 1) called.1 called.2 paren := by
  rw [evaluateNode, operands]
  simp only [bind_assoc, pure_bind]
  rfl

theorem call_native {which : Native} {arguments : List Value} (h : arguments.length = which.arity)
    (paren : Token) :
    call settings (room + 3) (.native which) arguments paren =
      announce settings "call <native fn " which.name arguments >>= fun _ =>
        atCall paren (callNative room which arguments) := by
  rw [call]
  exact if_neg (not_not_intro h)

theorem enter_bind {α : Type} (closure : Closure) (arguments : List Value) (f : Nat → Eval α) :
    enter closure arguments >>= f =
      create (·.newScope (some closure.scope)) >>= fun scope =>
        bindAll scope closure.params arguments >>= fun _ => f scope := by
  rw [enter]
  simp only [bind_assoc, pure_bind]

theorem call_function {place : Nat} {closure : Closure} {arguments : List Value}
    (hc : m.store.closures[place]? = some closure) (ha : arguments.length = closure.params.length)
    (paren : Token) :
    call settings (room + 3) (.function place) arguments paren m =
      (announce settings "call <fn " closure.name.text arguments >>= fun _ =>
        atCall paren (enter closure arguments >>= fun inner => parts closure.body >>= fun body =>
          runAll (fun node => execute settings room node inner) body >>= fun completion =>
            pure completion.result)) m := by
  have hresult : (fun completion => pure completion.result : Completion → Eval Value) =
      fun completion => match completion with
        | .normal => pure .nil
        | .returned value _ => pure value := by
    funext completion
    cases completion <;> rfl
  rw [call, get_bind, hc, hresult, enter_bind]
  exact congrFun (if_neg (not_not_intro ha)) m

theorem execute_ifElse (condition thenBranch elseBranch : Node) :
    execute settings (room + 2) (.ifElse condition thenBranch elseBranch) scope =
      test settings room "if condition " condition scope >>= fun holds =>
        if holds then execute settings (room + 1) thenBranch scope
        else if elseBranch.isAbsent then pure .normal
        else execute settings (room + 1) elseBranch scope := by
  rw [execute, test]
  simp only [bind_assoc, pure_bind]

theorem evaluate_of_error {node : Node}
    (h : evaluateNode settings room node scope m = .error stop m') :
    evaluate settings (room + 1) node scope m = .error stop m' := by
  rw [evaluate]
  exact bind_eq_of_error h

/-- What no call makes an error of its own of passes a call unchanged. -/
theorem atCall_of_passed {body : Eval Value} (h : body m = .error stop m') (hs : stop.raised? = none)
    (paren : Token) : atCall paren body m = .error stop m' := by
  unfold atCall
  rw [h]
  unfold Stop.raised? at hs
  split at hs
  · cases hs
  · cases hs
  · split <;> simp_all

/-- An error without a token gets the call's. -/
theorem atCall_of_raised {body : Eval Value} {cause : Fault} (h : body m = .error stop m')
    (hs : stop.raised? = some cause) (paren : Token) :
    atCall paren body m = .error (.fault cause (some paren)) m' := by
  unfold atCall
  rw [h]
  unfold Stop.raised? at hs
  split at hs <;> cases hs <;> rfl

/-! ## Steps inside steps -/

/-- A step of a running program. -/
inductive Step where
  | evaluate (room : Nat) (node : Node) (scope : Nat)
  | evaluateAll (room : Nat) (nodes : List Node) (scope : Nat)
  | locate (room : Nat) (node : Node) (scope : Nat)
  | execute (room : Nat) (node : Node) (scope : Nat)
  | executeAll (room : Nat) (nodes : List Node) (scope : Nat)
  /-- So many rounds of a loop. -/
  | rounds (room : Nat) (condition body : Node) (scope count : Nat)
  /-- Statements in the outermost scope. -/
  | program (room : Nat) (statements : List Node)

namespace Step

/-- What a step gives. -/
def Result : Step → Type
  | .evaluate .. => Value
  | .evaluateAll .. => List Value
  | .locate .. => Value × Place
  | .execute .. | .executeAll .. | .rounds .. => Completion
  | .program .. => Unit

/-- What a step does. -/
def run (settings : Settings) : (step : Step) → Eval step.Result
  | .evaluate room node scope => Eval.evaluate settings room node scope
  | .evaluateAll room nodes scope =>
    Eval.evaluateAll (fun node => Eval.evaluate settings room node scope) nodes
  | .locate room node scope => Eval.locate settings room node scope
  | .execute room node scope => Eval.execute settings room node scope
  | .executeAll room nodes scope => runAll (fun node => Eval.execute settings room node scope) nodes
  | .rounds room condition body scope count =>
    loop (test settings room "while condition " condition scope)
      (Eval.execute settings (room + 1) body scope) count
  | .program room statements => runProgram settings room statements

end Step

/-- A node that `locate` does nothing but evaluate. -/
def isComputed : Node → Bool
  | .variable _ | .indexGet _ _ _ | .grouping _ => false
  | _ => true

/-- A step that runs directly inside another one, and the machine that it starts in. What runs before
it has come to its end. -/
inductive Within (settings : Settings) : Step → Machine → Step → Machine → Prop where
  -- parts of expressions, from left to right
  | grouping {room scope inner m} :
      Within settings (.evaluate (room + 3) (.grouping inner) scope) m
        (.evaluate (room + 1) inner scope) m
  | assign {room scope name value m} :
      Within settings (.evaluate (room + 3) (.assign name value) scope) m
        (.evaluate (room + 1) value scope) m
  | unary {room scope operator right m} :
      Within settings (.evaluate (room + 3) (.unary operator right) scope) m
        (.evaluate (room + 1) right scope) m
  | left {room scope left operator right m} :
      Within settings (.evaluate (room + 3) (.binary left operator right) scope) m
        (.evaluate (room + 1) left scope) m
  | right {room scope left operator right a m m₁} :
      evaluate settings (room + 1) left scope m = .ok a m₁ →
      Within settings (.evaluate (room + 3) (.binary left operator right) scope) m
        (.evaluate (room + 1) right scope) m₁
  -- the second operand counts only if the first one does not decide
  | first {room scope left operator right m} :
      Within settings (.evaluate (room + 3) (.logical left operator right) scope) m
        (.evaluate (room + 1) left scope) m
  | second {room scope left operator right a m m₁} :
      evaluate settings (room + 1) left scope m = .ok a m₁ →
      (if operator.kind = .or then a.truthy else !a.truthy) = false →
      Within settings (.evaluate (room + 3) (.logical left operator right) scope) m
        (.evaluate (room + 1) right scope) m₁
  | callee {room scope callee paren arguments m} :
      Within settings (.evaluate (room + 3) (.call callee paren arguments) scope) m
        (.evaluate (room + 1) callee scope) m
  | arguments {room scope callee paren arguments value m m₁} :
      evaluate settings (room + 1) callee scope m = .ok value m₁ →
      Within settings (.evaluate (room + 3) (.call callee paren (.sequence arguments)) scope) m
        (.evaluateAll room arguments scope) m₁
  /-- The statements of a function that is called. -/
  | body {room scope callee paren arguments place closure values body inner m m₁ m₂ m₃} :
      operands settings (room + 2) callee arguments scope m = .ok (.function place, values) m₁ →
      m₁.store.closures[place]? = some closure → values.length = closure.params.length →
      closure.body = .sequence body →
      announce settings "call <fn " closure.name.text values m₁ = .ok () m₂ →
      enter closure values m₂ = .ok inner m₃ →
      Within settings (.evaluate (room + 5) (.call callee paren (.sequence arguments)) scope) m
        (.executeAll room body inner) m₃
  | elements {room scope bracket elements m} :
      Within settings (.evaluate (room + 3) (.array bracket (.sequence elements)) scope) m
        (.evaluateAll room elements scope) m
  | target {room scope target bracket index m} :
      Within settings (.evaluate (room + 3) (.indexGet target bracket index) scope) m
        (.evaluate (room + 1) target scope) m
  | index {room scope target bracket index container m m₁} :
      evaluate settings (room + 1) target scope m = .ok container m₁ →
      Within settings (.evaluate (room + 3) (.indexGet target bracket index) scope) m
        (.evaluate (room + 1) index scope) m₁
  | storedTarget {room scope target bracket index value m} :
      Within settings (.evaluate (room + 3) (.indexSet target bracket index value) scope) m
        (.locate (room + 1) target scope) m
  | storedIndex {room scope target bracket index value located m m₁} :
      locate settings (room + 1) target scope m = .ok located m₁ →
      Within settings (.evaluate (room + 3) (.indexSet target bracket index value) scope) m
        (.evaluate (room + 1) index scope) m₁
  | storedValue {room scope target bracket index value located i m m₁ m₂} :
      locate settings (room + 1) target scope m = .ok located m₁ →
      evaluate settings (room + 1) index scope m₁ = .ok i m₂ →
      Within settings (.evaluate (room + 3) (.indexSet target bracket index value) scope) m
        (.evaluate (room + 1) value scope) m₂
  | item {room node nodes scope m} :
      Within settings (.evaluateAll room (node :: nodes) scope) m (.evaluate room node scope) m
  | items {room node nodes scope value m m₁} :
      evaluate settings room node scope m = .ok value m₁ →
      Within settings (.evaluateAll room (node :: nodes) scope) m (.evaluateAll room nodes scope) m₁
  -- the place that an element is stored in
  | locateTarget {room scope target bracket index m} :
      Within settings (.locate (room + 1) (.indexGet target bracket index) scope) m
        (.locate room target scope) m
  | locateIndex {room scope target bracket index located m m₁} :
      locate settings room target scope m = .ok located m₁ →
      Within settings (.locate (room + 1) (.indexGet target bracket index) scope) m
        (.evaluate room index scope) m₁
  | locateInner {room scope inner m} :
      Within settings (.locate (room + 1) (.grouping inner) scope) m (.locate room inner scope) m
  | computed {room scope node m} :
      isComputed node →
      Within settings (.locate (room + 1) node scope) m (.evaluate room node scope) m
  -- parts of statements
  | expression {room scope inner m} :
      Within settings (.execute (room + 2) (.expression inner) scope) m
        (.evaluate (room + 1) inner scope) m
  | print {room scope inner m} :
      Within settings (.execute (room + 2) (.print inner) scope) m (.evaluate (room + 1) inner scope) m
  | initializer {room scope name initializer m} :
      initializer.isAbsent = false →
      Within settings (.execute (room + 2) (.var name initializer) scope) m
        (.evaluate (room + 1) initializer scope) m
  | block {room scope statements inner m m₁} :
      create (·.newScope (some scope)) m = .ok inner m₁ →
      Within settings (.execute (room + 2) (.block (.sequence statements)) scope) m
        (.executeAll room statements inner) m₁
  | condition {room scope condition thenBranch elseBranch m} :
      Within settings (.execute (room + 2) (.ifElse condition thenBranch elseBranch) scope) m
        (.evaluate (room + 1) condition scope) m
  | thenBranch {room scope condition thenBranch elseBranch m m₁} :
      test settings room "if condition " condition scope m = .ok true m₁ →
      Within settings (.execute (room + 2) (.ifElse condition thenBranch elseBranch) scope) m
        (.execute (room + 1) thenBranch scope) m₁
  | elseBranch {room scope condition thenBranch elseBranch m m₁} :
      test settings room "if condition " condition scope m = .ok false m₁ →
      elseBranch.isAbsent = false →
      Within settings (.execute (room + 2) (.ifElse condition thenBranch elseBranch) scope) m
        (.execute (room + 1) elseBranch scope) m₁
  | loop {room scope condition body m} :
      Within settings (.execute (room + 2) (.whileLoop condition body) scope) m
        (.rounds room condition body scope settings.rounds) m
  | roundTest {room scope condition body count m} :
      Within settings (.rounds room condition body scope (count + 1)) m
        (.evaluate (room + 1) condition scope) m
  | roundBody {room scope condition body count m m₁} :
      test settings room "while condition " condition scope m = .ok true m₁ →
      Within settings (.rounds room condition body scope (count + 1)) m
        (.execute (room + 1) body scope) m₁
  | roundsLeft {room scope condition body count m m₁ m₂} :
      test settings room "while condition " condition scope m = .ok true m₁ →
      execute settings (room + 1) body scope m₁ = .ok .normal m₂ →
      Within settings (.rounds room condition body scope (count + 1)) m
        (.rounds room condition body scope count) m₂
  | givenBack {room scope keyword value m} :
      value.isAbsent = false →
      Within settings (.execute (room + 2) (.giveBack keyword value) scope) m
        (.evaluate (room + 1) value scope) m
  | statement {room node nodes scope m} :
      Within settings (.executeAll room (node :: nodes) scope) m (.execute room node scope) m
  | statements {room node nodes scope m m₁} :
      execute settings room node scope m = .ok .normal m₁ →
      Within settings (.executeAll room (node :: nodes) scope) m (.executeAll room nodes scope) m₁
  -- the statements of a source
  | outermost {room node nodes m} :
      Within settings (.program room (node :: nodes)) m (.execute room node Store.globals) m
  | program {room node nodes m m₁} :
      execute settings room node Store.globals m = .ok .normal m₁ →
      Within settings (.program room (node :: nodes)) m (.program room nodes) m₁

/-- Inside a step a native function is called and stops with an error. The token is the closing
parenthesis of the call expression that called it. -/
inductive Raises (settings : Settings) : Step → Machine → Fault → Token → Prop where
  | native {room scope callee paren arguments which values stop cause m m₁ m₂ m₃} :
      operands settings (room + 2) callee arguments scope m = .ok (.native which, values) m₁ →
      values.length = which.arity →
      announce settings "call <native fn " which.name values m₁ = .ok () m₂ →
      callNative room which values m₂ = .error stop m₃ → stop.raised? = some cause →
      Raises settings (.evaluate (room + 5) (.call callee paren (.sequence arguments)) scope) m cause
        paren
  | within {outer inner m m₁ cause paren} :
      Within settings outer m inner m₁ → Raises settings inner m₁ cause paren →
      Raises settings outer m cause paren

/-- A step that runs somewhere inside another one or is that step, and the machine that it starts
in. -/
inductive Inside (settings : Settings) : Step → Machine → Step → Machine → Prop where
  | self {step m} : Inside settings step m step m
  | within {outer middle inner m m₁ m₂} :
      Within settings outer m middle m₁ → Inside settings middle m₁ inner m₂ →
      Inside settings outer m inner m₂

/-- A loop goes round so many times. Each time its condition holds and its body comes to its end. -/
inductive GoesRound (settings : Settings) (room : Nat) (condition body : Node) (scope : Nat) :
    Nat → Machine → Machine → Prop where
  | none {m : Machine} : GoesRound settings room condition body scope 0 m m
  | again {count : Nat} {m m₁ m₂ m₃ : Machine} :
      test settings room "while condition " condition scope m = .ok true m₁ →
      execute settings (room + 1) body scope m₁ = .ok .normal m₂ →
      GoesRound settings room condition body scope count m₂ m₃ →
      GoesRound settings room condition body scope (count + 1) m m₃

/-- Inside a step a loop goes round as often as is allowed. -/
def Spins (settings : Settings) (step : Step) (m m' : Machine) : Prop :=
  ∃ room condition body scope m₁,
    Inside settings step m (.execute (room + 2) (.whileLoop condition body) scope) m₁ ∧
      GoesRound settings room condition body scope settings.rounds m₁ m'

variable {outer inner : Step} {cause : Fault} {paren : Token}

/-! ## Errors on their way out -/

/-- What stops a step stops the step around it, unless a call makes an error of its own of it. -/
theorem Within.stops (h : Within settings outer m inner m₁)
    (hi : inner.run settings m₁ = .error stop m') (hs : stop.raised? = none) :
    outer.run settings m = .error stop m' := by
  cases h with
  | grouping => exact evaluate_of_error hi
  | assign => exact evaluate_of_error (bind_eq_of_error hi)
  | unary => exact evaluate_of_error (bind_eq_of_error hi)
  | left => exact evaluate_of_error (bind_eq_of_error hi)
  | right ha => exact evaluate_of_error ((bind_eq_of_ok ha).trans (bind_eq_of_error hi))
  | first => exact evaluate_of_error (bind_eq_of_error hi)
  | second ha hgo =>
    refine evaluate_of_error ((bind_eq_of_ok ha).trans ?_)
    simp only [hgo]
    exact hi
  | callee => exact evaluate_of_error (bind_eq_of_error hi)
  | arguments hc =>
    refine evaluate_of_error ((bind_eq_of_ok hc).trans ?_)
    exact (bind_eq_of_ok (parts_sequence _ _)).trans (bind_eq_of_error hi)
  | body ho hc ha hb ht he =>
    apply evaluate_of_error
    rw [evaluateNode_call, bind_eq_of_ok ho, call_function hc ha, bind_eq_of_ok ht]
    refine atCall_of_passed ?_ hs _
    rw [bind_eq_of_ok he, hb, bind_eq_of_ok (parts_sequence _ _)]
    exact bind_eq_of_error hi
  | elements =>
    exact evaluate_of_error ((bind_eq_of_ok (parts_sequence _ _)).trans (bind_eq_of_error hi))
  | target => exact evaluate_of_error (bind_eq_of_error hi)
  | index ha => exact evaluate_of_error ((bind_eq_of_ok ha).trans (bind_eq_of_error hi))
  | storedTarget => exact evaluate_of_error (bind_eq_of_error hi)
  | storedIndex hl => exact evaluate_of_error ((bind_eq_of_ok hl).trans (bind_eq_of_error hi))
  | storedValue hl hx =>
    exact evaluate_of_error
      (((bind_eq_of_ok hl).trans (bind_eq_of_ok hx)).trans (bind_eq_of_error hi))
  | item => exact bind_eq_of_error hi
  | items ha => exact (bind_eq_of_ok ha).trans (bind_eq_of_error hi)
  | locateTarget => exact bind_eq_of_error hi
  | locateIndex hl => exact (bind_eq_of_ok hl).trans (bind_eq_of_error hi)
  | locateInner => exact hi
  | @computed room scope node _ hc =>
    cases node with
    | «variable» | indexGet | grouping => cases hc
    | _ => exact bind_eq_of_error hi
  | expression => exact bind_eq_of_error (bind_eq_of_error hi)
  | print => exact bind_eq_of_error hi
  | initializer hv => exact (congrFun (if_neg (by simp [hv])) m).trans (bind_eq_of_error hi)
  | block hc => exact ((bind_eq_of_ok (parts_sequence _ _)).trans (bind_eq_of_ok hc)).trans hi
  | condition => exact bind_eq_of_error hi
  | thenBranch ht =>
    rw [Step.run, execute_ifElse, bind_eq_of_ok ht]
    exact hi
  | elseBranch ht hv =>
    rw [Step.run, execute_ifElse, bind_eq_of_ok ht, hv]
    exact hi
  | loop => exact hi
  | roundTest => exact bind_eq_of_error (bind_eq_of_error hi)
  | roundBody ht => exact (bind_eq_of_ok ht).trans (bind_eq_of_error hi)
  | roundsLeft ht hb => exact ((bind_eq_of_ok ht).trans (bind_eq_of_ok hb)).trans hi
  | givenBack hv => exact (congrFun (if_neg (by simp [hv])) m).trans (bind_eq_of_error hi)
  | statement => exact bind_eq_of_error hi
  | statements hn => exact (bind_eq_of_ok hn).trans hi
  | outermost => exact bind_eq_of_error hi
  | program hn => exact (bind_eq_of_ok hn).trans hi

/-- The error of a native function stops every step around its call, at the closing parenthesis of the
call. -/
theorem Raises.stops {step : Step} (h : Raises settings step m cause paren) :
    ∃ m', step.run settings m = .error (.fault cause (some paren)) m' := by
  induction h with
  | @native _ _ _ paren _ _ _ _ _ _ _ _ m₃ ho ha ht hn hraised =>
    refine ⟨m₃, evaluate_of_error ?_⟩
    rw [evaluateNode_call, bind_eq_of_ok ho, call_native ha, bind_eq_of_ok ht]
    exact atCall_of_raised hn hraised paren
  | within hw _ ih =>
    obtain ⟨m', hi⟩ := ih
    exact ⟨m', hw.stops hi rfl⟩

/-! ## Loops without end -/

theorem Inside.stops (h : Inside settings outer m inner m₁)
    (hi : inner.run settings m₁ = .error stop m') (hs : stop.raised? = none) :
    outer.run settings m = .error stop m' := by
  induction h with
  | self => exact hi
  | within hw _ ih => exact hw.stops (ih hi) hs

/-- A loop that has gone round as often as is allowed stops. -/
theorem GoesRound.stops {condition body : Node} {count : Nat}
    (h : GoesRound settings room condition body scope count m m') :
    (Step.rounds room condition body scope count).run settings m = .error .endless m' := by
  induction h with
  | none => rfl
  | again ht hb _ ih => exact Within.stops (.roundsLeft ht hb) ih rfl

/-- A loop without end stops every step around it. -/
theorem Spins.stops {step : Step} (h : Spins settings step m m') :
    step.run settings m = .error .endless m' := by
  obtain ⟨room, condition, body, scope, m₁, hinside, hround⟩ := h
  exact hinside.stops (Within.stops .loop hround.stops rfl) rfl

/-- A loop that has no round left is one that has gone round already, whether it began inside the step
or the step is what is left of it. -/
theorem Inside.goesRound {condition body : Node}
    (h : Inside settings outer m (.rounds room condition body scope 0) m') :
    (∃ count, outer = .rounds room condition body scope count ∧
        GoesRound settings room condition body scope count m m') ∨ Spins settings outer m m' := by
  generalize hlast : Step.rounds room condition body scope 0 = last at h
  induction h with
  | self => exact .inl ⟨0, hlast.symm, .none⟩
  | within hw _ ih =>
    rcases ih hlast with ⟨count, rfl, hround⟩ | ⟨room', condition', body', scope', m₁, hinside, hround⟩
    · cases hw with
      | loop => exact .inr ⟨_, _, _, _, _, .self, hround⟩
      | roundsLeft ht hb => exact .inl ⟨count + 1, rfl, .again ht hb hround⟩
    · exact .inr ⟨room', condition', body', scope', m₁, .within hw hinside, hround⟩

/-! ## Steps of programs -/

/-- A step on trees that came from programs. -/
def Step.Sound (W : Token → Prop) : Step → Prop
  | .evaluate _ node _ | .locate _ node _ => IsExpression W node
  | .evaluateAll _ nodes _ => ∀ node ∈ nodes, IsExpression W node
  | .execute _ node _ => IsStatement W node
  | .executeAll _ nodes _ | .program _ nodes => ∀ node ∈ nodes, IsStatement W node
  | .rounds _ condition body _ _ => IsExpression W condition ∧ IsStatement W body

variable {W : Token → Prop} (hW : ∀ token, W token → token.Written)

include hW

theorem Safe.operands {callee : Node} {arguments : List Node} (hc : IsExpression W callee)
    (ha : ∀ node ∈ arguments, IsExpression W node) :
    Safe W (operands settings room callee arguments scope) anything := by
  refine ((safeAt hW settings _).evaluate scope hc).bind fun _ _ => ?_
  refine (Safe.evaluateAll fun node hn => (safeAt hW settings _).evaluate scope (ha node hn)).bind ?_
  exact fun _ _ => .pure trivial

theorem Safe.enter {closure : Closure} (hc : closure.Sound W) (arguments : List Value) :
    Safe W (enter closure arguments) anything := by
  refine Safe.bind (R := anything) (.create fun _ hs => hs) fun _ _ => ?_
  exact (Safe.bindAll hW hc.params _ arguments).bind fun _ _ => .pure trivial

theorem Safe.test {condition : Node} (hc : IsExpression W condition) (label : String) :
    Safe W (test settings room label condition scope) anything := by
  refine ((safeAt hW settings _).evaluate scope hc).bind fun _ _ => ?_
  exact (Safe.traceValue _ _ _ _ _).bind fun _ _ => .pure trivial

/-- Steps of programs run steps of programs, in machines whose functions came from programs. -/
theorem Within.sound (h : Within settings outer m inner m₁) (ho : outer.Sound W)
    (hm : m.store.Sound W) : inner.Sound W ∧ m₁.store.Sound W := by
  have evaluated {room node scope value m₁ m₂} (hn : IsExpression W node) (hm : m₁.store.Sound W)
      (h : evaluate settings room node scope m₁ = .ok value m₂) : m₂.store.Sound W :=
    (((safeAt hW settings room).evaluate scope hn).ok hm h).1
  have executed {room node scope completion m₁ m₂} (hn : IsStatement W node) (hm : m₁.store.Sound W)
      (h : execute settings room node scope m₁ = .ok completion m₂) : m₂.store.Sound W :=
    (((safeAt hW settings room).execute scope hn).ok hm h).1
  have located {room node scope result m₁ m₂} (hn : IsExpression W node) (hm : m₁.store.Sound W)
      (h : locate settings room node scope m₁ = .ok result m₂) : m₂.store.Sound W :=
    (((safeAt hW settings room).locate scope hn).ok hm h).1
  have tested {room label node scope holds m₁ m₂} (hn : IsExpression W node) (hm : m₁.store.Sound W)
      (h : test settings room label node scope m₁ = .ok holds m₂) : m₂.store.Sound W :=
    ((Safe.test hW hn label).ok hm h).1
  cases h with
  | grouping =>
    cases ho with
    | grouping hi => exact ⟨hi, hm⟩
  | assign =>
    cases ho with
    | assign _ hv => exact ⟨hv, hm⟩
  | unary =>
    cases ho with
    | unary _ _ hr => exact ⟨hr, hm⟩
  | left =>
    cases ho with
    | binary hl _ _ _ => exact ⟨hl, hm⟩
  | right ha =>
    cases ho with
    | binary hl _ _ hr => exact ⟨hr, evaluated hl hm ha⟩
  | first =>
    cases ho with
    | logical hl _ _ _ => exact ⟨hl, hm⟩
  | second ha _ =>
    cases ho with
    | logical hl _ _ hr => exact ⟨hr, evaluated hl hm ha⟩
  | callee =>
    cases ho with
    | call hc _ _ _ => exact ⟨hc, hm⟩
  | arguments hv =>
    cases ho with
    | call hc _ _ ha => exact ⟨ha, evaluated hc hm hv⟩
  | body hops hclosure _ hbody ht he =>
    cases ho with
    | call hc _ _ ha =>
      have hm₁ := ((Safe.operands hW hc ha).ok hm hops).1
      have hm₂ := ((Safe.trace _ _ _).ok hm₁ ht).1
      have hsound := hm₁ _ (Array.mem_of_getElem? hclosure)
      obtain ⟨body, hseq, hall⟩ := hsound.body
      obtain rfl : body = _ := by simpa [hbody] using hseq.symm
      exact ⟨hall, ((Safe.enter hW hsound _).ok hm₂ he).1⟩
  | elements =>
    cases ho with
    | array _ he => exact ⟨he, hm⟩
  | target =>
    cases ho with
    | indexGet ht _ _ => exact ⟨ht, hm⟩
  | index ha =>
    cases ho with
    | indexGet ht _ hi => exact ⟨hi, evaluated ht hm ha⟩
  | storedTarget =>
    cases ho with
    | indexSet ht _ _ _ => exact ⟨ht, hm⟩
  | storedIndex hl =>
    cases ho with
    | indexSet ht _ hi _ => exact ⟨hi, located ht hm hl⟩
  | storedValue hl hx =>
    cases ho with
    | indexSet ht _ hi hv => exact ⟨hv, evaluated hi (located ht hm hl) hx⟩
  | item => exact ⟨ho _ (by simp), hm⟩
  | items ha => exact ⟨fun node hn => ho node (by simp [hn]), evaluated (ho _ (by simp)) hm ha⟩
  | locateTarget =>
    cases ho with
    | indexGet ht _ _ => exact ⟨ht, hm⟩
  | locateIndex hl =>
    cases ho with
    | indexGet ht _ hi => exact ⟨hi, located ht hm hl⟩
  | locateInner =>
    cases ho with
    | grouping hi => exact ⟨hi, hm⟩
  | computed => exact ⟨ho, hm⟩
  | expression =>
    cases ho with
    | expression hi => exact ⟨hi, hm⟩
  | print =>
    cases ho with
    | print hi => exact ⟨hi, hm⟩
  | initializer hv =>
    cases ho with
    | var _ hi => exact ⟨hi.resolve_left (by rintro rfl; cases hv), hm⟩
  | block hc =>
    cases ho with
    | block hb => exact ⟨hb, ((Safe.create fun _ hs => hs).ok hm hc).1⟩
  | condition =>
    cases ho with
    | ifThen hc _ => exact ⟨hc, hm⟩
    | ifElse hc _ _ => exact ⟨hc, hm⟩
  | thenBranch ht =>
    cases ho with
    | ifThen hc hb => exact ⟨hb, tested hc hm ht⟩
    | ifElse hc hb _ => exact ⟨hb, tested hc hm ht⟩
  | elseBranch ht hv =>
    cases ho with
    | ifThen => cases hv
    | ifElse hc _ hb => exact ⟨hb, tested hc hm ht⟩
  | loop =>
    cases ho with
    | whileLoop hc hb => exact ⟨⟨hc, hb⟩, hm⟩
  | roundTest => exact ⟨ho.1, hm⟩
  | roundBody ht => exact ⟨ho.2, tested ho.1 hm ht⟩
  | roundsLeft ht hb => exact ⟨ho, executed ho.2 (tested ho.1 hm ht) hb⟩
  | givenBack hv =>
    cases ho with
    | giveBack _ hi => exact ⟨hi.resolve_left (by rintro rfl; cases hv), hm⟩
  | statement => exact ⟨ho _ (by simp), hm⟩
  | statements hn => exact ⟨fun node h => ho node (by simp [h]), executed (ho _ (by simp)) hm hn⟩
  | outermost => exact ⟨ho _ (by simp), hm⟩
  | program hn => exact ⟨fun node h => ho node (by simp [h]), executed (ho _ (by simp)) hm hn⟩

/-- The token of an error of a native function is a closing parenthesis of a program. -/
theorem Raises.rightParen {step : Step} (h : Raises settings step m cause paren) (hs : step.Sound W)
    (hm : m.store.Sound W) : W paren ∧ paren.kind = .rightParen := by
  induction h with
  | native =>
    cases hs with
    | call _ hp hk _ => exact ⟨hp, hk⟩
  | within hw _ ih =>
    obtain ⟨hs', hm'⟩ := hw.sound hW hs hm
    exact ih hs' hm'

end Eval

end GameScript
