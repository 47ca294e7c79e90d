import GameScript.Proofs.Grammar.Exactness
import GameScript.Proofs.Renaming.Evaluator
import GameScript.Proofs.Session.Basic

/-! # What a `for` loop does

A `for` loop is parsed to a block with a `while` loop in it. With an increment, each round of that loop
runs in a block of its own, so that functions declared in the body see one more scope around them than
in a loop that knows of its clauses. `runFor` is that loop: it opens one scope, and runs all in it. The
two do the same, but the `while` loop builds a text of its condition for the trace, for which there
may be no room. -/

namespace GameScript

/-! ## States that programs reach -/

theorem Store.initial_closed : Store.initial.Closed := by
  obtain ⟨names, hscopes⟩ : ∃ names, Store.initial.scopes = #[⟨none, names⟩] := ⟨_, rfl⟩
  refine ⟨by rw [hscopes]; exact Nat.one_pos, fun {i outer names'} hx => ?_, fun hc => ?_⟩
  · rw [hscopes] at hx
    obtain ⟨hi, hx⟩ := Array.getElem?_eq_some_iff.mp hx
    cases i with
    | zero => cases hx
    | succ i => exact absurd hi (by simp)
  · cases hc

namespace Session

theorem start_closed (input : String) (verbosity : Nat) (clock : Float) :
    (start input verbosity clock).machine.store.Closed := Store.initial_closed

theorem settle_store (session : Session) (p : Eval Unit) (m : Machine) :
    (session.settle (p m)).2.machine.store = (Eval.after p m).store := by
  unfold Eval.after
  cases p m with
  | ok => rfl
  | error stop machine => cases stop <;> simp [settle, report, enter]

/-- Running statements keeps the store closed, whether they end or stop. -/
theorem interpret_closed {session : Session} (h : session.machine.store.Closed)
    (statements : List Node) : (session.interpret statements).2.machine.store.Closed := by
  obtain ⟨log, hlog⟩ := session.interpret_eq statements
  rw [hlog, settle_store]
  exact Eval.runProgram_closed session.settings session.limits.running statements h

/-- Every program leaves the store closed. -/
theorem run_closed {session : Session} (h : session.machine.store.Closed) (source : String) :
    (session.run source).2.machine.store.Closed := by
  by_cases hclean : (parseSource session.limits source).diagnostics = []
  · obtain ⟨entries, hrun⟩ := session.run_of_clean hclean
    rw [hrun]
    exact interpret_closed (by rwa [logAll_store]) _
  · obtain ⟨entries, hparse⟩ := session.parse_snd source
    rw [session.run_of_reported hclean, hparse, logAll_store, foldl_enter]
    exact h

end Session

/-! ## The loop itself -/

/-- Only declarations declare a name in the scope that they stand in. -/
theorem Grammar.Builds.declared_eq_nil {nearest : Prop} {isOpen : Bool} {ts : List Token}
    {node : Node} (h : Builds nearest (.statement isOpen) ts node) : node.declared = [] := by
  generalize hform : Form.statement isOpen = form at h
  induction h generalizing isOpen with
  | function | declared | statement | none | more => cases hform
  | ifThen _ _ _ _ _ ih => simp [Node.declared, ih rfl]
  | ifElse _ _ _ _ _ _ _ _ ih ih' => simp [Node.declared, ih rfl, ih' rfl]
  | whileLoop _ _ _ _ _ ih => exact ih rfl
  | simple h => cases h with | mk => rfl
  | forLoop | print | giveBack | block => rfl

namespace Eval

/-- Does the condition of a loop hold? One that is missing does. -/
def holdsFor (settings : Settings) (room scope : Nat) : Option Node → Eval Bool
  | some condition => return (← evaluate settings room condition scope).truthy
  | none => pure true

/-- Evaluates the increment of a loop, if there is one. -/
def advance (settings : Settings) (room scope : Nat) : Option Node → Eval Unit
  | some increment => discard <| evaluate settings room increment scope
  | none => pure ()

/-- A round of a loop: the body, and unless that returns what is done after it. -/
def oneRound (body : Eval Completion) (next : Eval Unit) : Eval Completion := do
  match ← body with
  | .normal => do
    next
    pure .normal
  | .returned value keyword => pure (.returned value keyword)

/-- A `for` loop with one scope, in which all of its clauses and the body run. -/
def runFor (settings : Settings) (room : Nat) (initializer condition increment : Option Node)
    (body : Node) (scope : Nat) : Eval Completion := do
  let inner ← create (·.newScope (some scope))
  match ← runAll (fun node => execute settings room node inner) initializer.toList with
  | .normal =>
    loop (holdsFor settings room inner condition)
      (oneRound (execute settings room body inner) (advance settings room inner increment))
      settings.rounds
  | .returned value keyword => pure (.returned value keyword)

theorem oneRound_pure (body : Eval Completion) : oneRound body (pure ()) = body := by
  refine Eq.trans (bind_congr fun completion => ?_) (bind_pure body)
  cases completion <;> rfl

/-! ## The block that it is parsed to -/

theorem execute_block (settings : Settings) (room : Nat) (nodes : List Node) (scope : Nat) :
    execute settings (room + 2) (.block (.sequence nodes)) scope =
      create (·.newScope (some scope)) >>= fun inner =>
        runAll (fun node => execute settings room node inner) nodes := rfl

theorem runAll_concat (run : Node → Eval Completion) (nodes : List Node) (last : Node) :
    runAll run (nodes ++ [last]) = (do
      match ← runAll run nodes with
      | .normal => run last
      | .returned value keyword => pure (.returned value keyword)) := by
  induction nodes with
  | nil =>
    rw [List.nil_append, runAll, runAll, pure_bind]
    refine Eq.trans (bind_congr fun completion => ?_) (bind_pure (run last))
    cases completion <;> rfl
  | cons node nodes ih =>
    rw [List.cons_append, runAll, runAll, bind_assoc]
    refine bind_congr fun completion => ?_
    cases completion with
    | normal => exact ih
    | returned => exact (pure_bind _ _).symm

/-- The body with the increment after it. -/
theorem runAll_round (settings : Settings) (room : Nat) (body increment : Node) (scope : Nat) :
    runAll (fun node => execute settings (room + 2) node scope) [body, .expression increment] =
      oneRound (execute settings (room + 2) body scope)
        (advance settings (room + 1) scope (some increment)) := by
  rw [runAll, oneRound]
  refine bind_congr fun completion => ?_
  cases completion with
  | normal =>
    rw [runAll, execute, bind_assoc]
    exact bind_congr fun _ => pure_bind _ _
  | returned => rfl

/-- The condition of a `while` loop, with its trace. -/
def whileHolds (settings : Settings) (room : Nat) (condition : Node) (scope : Nat) : Eval Bool := do
  let value ← evaluate settings room condition scope
  traceValue settings room 3 "while condition " value
  pure value.truthy

theorem execute_whileLoop (settings : Settings) (room : Nat) (condition body : Node) (scope : Nat) :
    execute settings (room + 2) (.whileLoop condition body) scope =
      loop (whileHolds settings (room + 1) condition scope)
        (execute settings (room + 1) body scope) settings.rounds := rfl

/-! ## Both together -/

namespace Mirrors

variable {extra : Nat} {w : Renaming}

theorem oneRound {body body' : Eval Completion} {next next' : Eval Unit}
    (hbody : Mirrors extra w Same body body') (hnext : Mirrors extra w Same next next') :
    Mirrors extra w Same (oneRound body next) (Eval.oneRound body' next') := by
  refine hbody.andThen fun completion hw => ?_
  cases completion with
  | normal => exact (hnext.extend hw).andThen fun _ _ => same _
  | returned => exact same _

variable {settings settings' : Settings} {room room' i i' : Nat}

/-- The text of a condition is built for the trace only. -/
theorem traceValue_aside (level : Nat) (label : String) (value : Value) :
    Mirrors extra w Same (Eval.traceValue settings room level label value) (Pure.pure ()) := by
  have hquiet : settings.Quiets ⟨settings.rounds, none⟩ := ⟨rfl, .inl rfl⟩
  exact traceValue hquiet (Nat.le_refl room) level label value

theorem traceExpression_aside (node : Node) (value : Value) :
    Mirrors extra w Same (Eval.traceExpression settings room node value) (Pure.pure ()) := by
  have hquiet : settings.Quiets ⟨settings.rounds, none⟩ := ⟨rfl, .inl rfl⟩
  exact traceExpression hquiet (Nat.le_refl room) node value

theorem literal_aside (literal : Json) :
    Mirrors extra w Same (evaluate settings room (.literal literal) i)
      (Pure.pure (Value.ofJson literal)) := by
  by_cases hshort : room < 3
  · exact MirrorsAt.evaluate_short hshort
  · obtain ⟨room, rfl⟩ : ∃ r, room = r + 3 := ⟨room - 3, by omega⟩
    exact (traceExpression_aside (.literal literal) _).andThen fun _ _ => same _

/-- The condition of the `while` loop is that of the `for` loop, which may be missing. -/
theorem holds_loop (hs : settings.Quiets settings') (hr : room + extra ≤ room')
    (ha : w.Alike extra i i') (condition : Option Node) :
    Mirrors extra w Same (whileHolds settings room (condition.getD (.literal (.bool true))) i)
      (holdsFor settings' room' i' condition) := by
  have traced (value : Value) {w : Renaming} : Mirrors extra w Same
      (do
        Eval.traceValue settings room 3 "while condition " value
        Pure.pure value.truthy)
      (Pure.pure value.truthy) :=
    (traceValue_aside 3 _ value).andThen fun _ _ => same _
  cases condition with
  | some condition =>
    exact ((mirrorsAt hs hr).evaluate condition ha).andThen fun value _ => traced value
  | none => exact (literal_aside (.bool true)).andThen fun value _ => traced value

/-- The condition of the `for` loop is that of the `while` loop, if no text of it is built. -/
theorem holds_direct (hrounds : settings.rounds = settings'.rounds)
    (htracing : settings'.tracing = none) (hr : room + extra ≤ room') (hroom : 3 ≤ room')
    (ha : w.Alike extra i i') (condition : Option Node) :
    Mirrors extra w Same (holdsFor settings room i condition)
      (whileHolds settings' room' (condition.getD (.literal (.bool true))) i') := by
  obtain ⟨rounds, tracing⟩ := settings'
  cases htracing
  cases condition with
  | some condition =>
    have hs : settings.Quiets ⟨rounds, none⟩ := ⟨hrounds, .inl rfl⟩
    exact ((mirrorsAt hs hr).evaluate condition ha).andThen fun value _ => same _
  | none =>
    obtain ⟨room', rfl⟩ : ∃ r, room' = r + 3 := ⟨room' - 3, by omega⟩
    exact same _

/-- Too little room for any statement. -/
theorem execute_short {R : Renaming → Completion → Completion → Prop} {node : Node}
    {p : Eval Completion} (h : room < 2) : Mirrors extra w R (execute settings room node i) p := by
  match room, h with
  | 0, _ | 1, _ => exact overflow

theorem runAll_short {node : Node} {nodes : List Node} {p : Eval Completion} (h : room < 2) :
    Mirrors extra w Same (Eval.runAll (fun node => execute settings room node i) (node :: nodes))
      p := by
  match room, h with
  | 0, _ | 1, _ => exact ⟨fun _ hm => .exhausted rfl hm.store.closed⟩

/-- A round of the `while` loop is one of the `for` loop, with a scope of its own if there is an
increment. -/
theorem round_loop (hs : settings.Quiets settings') (hr : room ≤ room') (hp : w.pairs 0 i i')
    {body : Node} (hbody : body.declared = []) (increment : Option Node) :
    Mirrors 0 w Same (execute settings room (Grammar.loopBody body increment) i)
      (Eval.oneRound (execute settings' room' body i') (advance settings' room' i' increment)) := by
  have ha : w.Alike 0 i i' := .pair hp (Nat.le_refl 0)
  cases increment with
  | none =>
    rw [advance, oneRound_pure]
    exact (mirrorsAt hs hr).execute body ha (.inl hbody)
  | some increment =>
    by_cases hshort : room < 2
    · exact execute_short hshort
    obtain ⟨room, rfl⟩ : ∃ r, room = r + 2 := ⟨room - 2, by omega⟩
    rw [Grammar.loopBody, execute_block]
    -- The body declares nothing in the scope of the round, so that stays empty.
    refine inScopeLeft ha fun hw hl => ?_
    by_cases hshort : room < 2
    · exact runAll_short hshort
    obtain ⟨room, rfl⟩ : ∃ r, room = r + 2 := ⟨room - 2, by omega⟩
    rw [runAll_round]
    have ha' := Renaming.Alike.left hl (ha.extend hw)
    refine oneRound ((mirrorsAt hs (by omega)).execute body ha' (.inl hbody)) ?_
    exact ((mirrorsAt hs (by omega)).evaluate increment ha').discard

/-- A round of the `for` loop is one of the `while` loop, which needs room for the block and for the
scope of that. -/
theorem round_direct (hs : settings.Quiets settings') (hr : room + 4 ≤ room') (hp : w.pairs 0 i i')
    {body : Node} (hbody : body.declared = []) (increment : Option Node) :
    Mirrors 1 w Same
      (Eval.oneRound (execute settings room body i) (advance settings room i increment))
      (execute settings' room' (Grammar.loopBody body increment) i') := by
  cases increment with
  | none =>
    rw [advance, oneRound_pure]
    exact (mirrorsAt hs (by omega)).execute body (.pair hp (Nat.zero_le 1)) (.inl hbody)
  | some increment =>
    obtain ⟨room', rfl⟩ : ∃ r, room' = r + 4 := ⟨room' - 4, by omega⟩
    rw [Grammar.loopBody, execute_block]
    refine inScopeRight i' fun hw hright => ?_
    rw [runAll_round]
    have ha' := Renaming.Alike.right hright (.pair (hw.pairs hp) (Nat.le_refl 0))
    refine oneRound ((mirrorsAt hs (by omega)).execute body ha' (.inl hbody)) ?_
    exact ((mirrorsAt hs (by omega)).evaluate increment ha').discard

/-- What the parser makes of a `for` loop does what the loop does. -/
theorem loop_direct (hs : settings.Quiets settings') (hr : room ≤ room') (ha : w.Alike 0 i i')
    (initializer condition increment : Option Node) {body : Node} (hbody : body.declared = []) :
    Mirrors 0 w Same
      (execute settings room (Parse.forLoop initializer condition increment body) i)
      (runFor settings' room' initializer condition increment body i') := by
  by_cases hshort : room < 2
  · exact execute_short hshort
  obtain ⟨room, rfl⟩ : ∃ r, room = r + 2 := ⟨room - 2, by omega⟩
  rw [Grammar.forLoop_eq, Grammar.loopTree, execute_block]
  refine inScope ha fun hw hp => ?_
  rw [runAll_concat]
  have hinitial (node : Node) := (mirrorsAt hs (show room + 0 ≤ room' by omega)).execute node
    (.pair hp (Nat.le_refl 0)) (.inr ⟨0, hp⟩)
  refine (runAll fun node _ => hinitial node).andThen fun completion hw' => ?_
  cases completion with
  | returned => exact same _
  | normal =>
    by_cases hshort : room < 2
    · exact execute_short hshort
    obtain ⟨room, rfl⟩ : ∃ r, room = r + 2 := ⟨room - 2, by omega⟩
    dsimp only
    rw [execute_whileLoop, hs.rounds]
    have hp' := hw'.pairs hp
    exact loop (holds_loop hs (by omega) (.pair hp' (Nat.le_refl 0)) condition)
      (round_loop hs (by omega) hp' hbody increment) _

/-- A `for` loop does what the parser makes of it. -/
theorem direct_loop (hrounds : settings.rounds = settings'.rounds)
    (htracing : settings'.tracing = none) (hr : room + 7 ≤ room') (ha : w.Alike 0 i i')
    (initializer condition increment : Option Node) {body : Node} (hbody : body.declared = []) :
    Mirrors 1 w Same (runFor settings room initializer condition increment body i)
      (execute settings' room' (Parse.forLoop initializer condition increment body) i') := by
  have hs : settings.Quiets settings' := ⟨hrounds, .inl htracing⟩
  obtain ⟨room', rfl⟩ : ∃ r, room' = r + 4 := ⟨room' - 4, by omega⟩
  rw [Grammar.forLoop_eq, Grammar.loopTree, execute_block]
  refine inScope ha fun hw hp => ?_
  rw [runAll_concat]
  have hinitial (node : Node) := (mirrorsAt hs (show room + 1 ≤ room' + 2 by omega)).execute node
    (.pair hp (Nat.zero_le 1)) (.inr ⟨0, hp⟩)
  refine (runAll fun node _ => hinitial node).andThen fun completion hw' => ?_
  cases completion with
  | returned => exact same _
  | normal =>
    dsimp only
    rw [execute_whileLoop, hrounds]
    have hp' := hw'.pairs hp
    have ha' := Renaming.Alike.pair hp' (Nat.zero_le 1)
    exact loop (holds_direct hrounds htracing (by omega) (by omega) ha' condition)
      (round_direct hs (by omega) hp' hbody increment) _

end Mirrors

/-- What the parser makes of a `for` loop runs as the loop itself does, in every scope of every store
that programs leave, unless it runs out of room: it ends in the same way, after the same input and
output, and leaves the same bindings, arrays and functions but for the numbers of scopes. Without a
trace, and with room for a few more steps, it does not run out of room if the loop itself does not. No
scope that was there gains a name. -/
theorem forLoop_direct {nearest : Prop} {isOpen : Bool} {ts : List Token} {body : Node}
    (hbody : Grammar.Builds nearest (.statement isOpen) ts body)
    (initializer condition increment : Option Node) {settings settings' : Settings}
    (hs : settings.Quiets settings') {m : Machine} (hm : m.store.Closed) {scope : Nat}
    (hscope : scope < m.store.scopes.size) :
    let parsed := Parse.forLoop initializer condition increment body
    (∀ {room room'}, room ≤ room' →
      Ends 0 (.identity m.store) Same (execute settings room parsed scope m)
        (runFor settings' room' initializer condition increment body scope m)) ∧
    (∀ {room room'}, room + 7 ≤ room' → settings'.tracing = none →
      Ends 1 (.identity m.store) Same
        (runFor settings room initializer condition increment body scope m)
        (execute settings' room' parsed scope m)) ∧
    ∀ room, m.store.Grows .nothing (after (execute settings room parsed scope) m).store := by
  intro parsed
  have ha := Renaming.alike_identity hscope 0
  have hnone := hbody.declared_eq_nil
  refine ⟨fun hr => ?_, fun hr htracing => ?_, fun room => ?_⟩
  · exact (Mirrors.loop_direct hs hr ha initializer condition increment hnone).ends (.refl _)
      (.identity hm)
  · exact (Mirrors.direct_loop hs.rounds htracing hr ha initializer condition increment hnone).ends
      (.refl _) (.identity hm)
  · exact (scopes_confined settings room parsed scope m).2.1 _

/-! ## Loops in use -/

open Grammar (word name)

/-- The tokens of `{ fun show() { print s; } kept = show; show(); }`. -/
def keepingTokens : List Token :=
  [word .leftBrace "\x7b", word .fun "fun", name "show", word .leftParen "(", word .rightParen ")",
    word .leftBrace "\x7b", word .print "print", name "s", word .semicolon ";",
    word .rightBrace "\x7d", name "kept", word .equal "=", name "show", word .semicolon ";",
    name "show", word .leftParen "(", word .rightParen ")", word .semicolon ";",
    word .rightBrace "\x7d"]

/-- Their tree. -/
def keeping : Node :=
  .block (.sequence [
    .function (name "show") [] (.sequence [.print (.variable (name "s"))]),
    .expression (.assign (name "kept") (.variable (name "show"))),
    .expression (.call (.variable (name "show")) (word .rightParen ")") (.sequence []))])

/-- The parser makes this tree of the tokens, so it is a statement. -/
theorem keeping_builds : ∃ isOpen ts, Grammar.Builds True (.statement isOpen) ts keeping := by
  have hprogram : Grammar.Program True keepingTokens [keeping] :=
    @Grammar.parseTokens_sound .standard keepingTokens [keeping] (.finish 1) rfl (by decide) rfl
  generalize keepingTokens = ts at hprogram
  cases hprogram with
  | more hnode _ =>
    cases hnode with
    | statement hb => exact ⟨_, _, hb⟩
    | declared _ hv => cases hv

/-- A machine with a name to keep something in. -/
def keeper : Machine := ((Session.start "" 0 1).run "var kept;").2.machine

theorem keeper_closed : keeper.store.Closed := by
  rw [keeper]
  exact @Session.run_closed (Session.start "" 0 1) (Session.start_closed "" 0 1) "var kept;"

/-- The loop `for (var s = "a"; s != "axx"; s = s + "x")` around a body that keeps a function. -/
theorem keeping_direct :
    let settings : Settings := ⟨Session.standardRounds, some 0⟩
    let s : Node := .variable (name "s")
    let initializer : Node := .var (name "s") (.literal (.string "a"))
    let condition : Node := .binary s (word .bangEqual "!=") (.literal (.string "axx"))
    let increment : Node := .assign (name "s") (.binary s (word .plus "+") (.literal (.string "x")))
    let parsed := execute settings 994
      (Parse.forLoop (some initializer) (some condition) (some increment) keeping) Store.globals
    let direct := runFor settings 994 (some initializer) (some condition) (some increment) keeping
      Store.globals
    keeper.store.Closed ∧ ∃ done done', parsed keeper = .ok .normal done ∧
      direct keeper = .ok .normal done' ∧ done.output = "a\nax\n" ∧ done'.output = "a\nax\n" ∧
      done.store.own? Store.globals (.text "kept") =
        done'.store.own? Store.globals (.text "kept") := by
  intro settings s initializer condition increment parsed direct
  have hrun : (match parsed keeper with
      | .ok .normal done => done.output == "a\nax\n"
      | .ok (.returned _ _) _ | .error _ _ => false) = true := by decide +kernel
  obtain ⟨isOpen, ts, hbody⟩ := keeping_builds
  have hquiet : settings.Quiets settings := ⟨rfl, .inr rfl⟩
  have hends : Ends 0 (.identity keeper.store) Same (parsed keeper) (direct keeper) :=
    (forLoop_direct hbody (some initializer) (some condition) (some increment) hquiet keeper_closed
      keeper_closed.outermost).1 (Nat.le_refl 994)
  clear_value parsed direct
  split at hrun
  · next done hdone =>
    rw [hdone] at hends
    obtain ⟨done', hdone', -, hsame, -, hnames⟩ := hends.of_ok
    have houtput := beq_iff_eq.mp hrun
    exact ⟨keeper_closed, done, done', hdone, hdone', houtput, hsame ▸ houtput,
      hnames _ keeper_closed.outermost _⟩
  all_goals cases hrun

/-- A condition that is an array which contains itself has no text, so the `while` loop runs out of
room where the loop itself goes round once. -/
theorem selfCondition_overflows :
    let session := ((Session.start "" 0 1).run "var a = []; push(a, a);").2
    let a : Node := .variable (name "a")
    let increment : Node := .assign (name "a") (.literal .null)
    let body : Node := .print (.literal (.string "x"))
    let direct := runFor session.settings 991 none (some a) (some increment) body Store.globals
    (execute session.settings 991 (Parse.forLoop none (some a) (some increment) body) Store.globals
      session.machine matches .error .overflow _) ∧
    (direct session.machine matches .ok .normal _) ∧
    (after direct session.machine).output = "x\n" ∧
    (session.run "for (; a; a = nil) print \"x\";").1 = .finished false ∧
    (session.run "for (; a; a = nil) print \"x\";").2.errors =
      "[line 0] Runtime error (StackOverflow): Expression nesting too deep.\n" := by
  decide +kernel

end Eval

end GameScript
