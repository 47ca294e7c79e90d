import GameScript.Proofs.Blame.Natives
import GameScript.Proofs.Session.Record

/-! # Every error of a running program has a line

Sources are run one after the other on one session. An error of a running program is on the line of a
token of one of the sources that were run, and not necessarily of the last one: a function that an
earlier source left behind keeps its tokens. The only error without a line is that of an expression
that nests too deeply outside any call. -/

namespace GameScript

/-! ## Lines -/

theorem Scan.ofPieces_line (line : Int) (pieces : List Piece) :
    line ≤ (ofPieces line pieces).lastLine ∧ ∀ token ∈ (ofPieces line pieces).tokens,
      ∃ n : Int, token.line = .int n ∧ line ≤ n ∧ n ≤ (ofPieces line pieces).lastLine := by
  induction pieces generalizing line with
  | nil => exact ⟨Int.le_refl _, nofun⟩
  | cons piece rest ih =>
    obtain ⟨hlast, htokens⟩ := ih (line + piece.lineFeeds)
    refine ⟨by simp only [ofPieces]; omega, fun token ht => ?_⟩
    rcases List.mem_append.mp ht with ht | ht
    · cases piece with
      | token kind text literal =>
        obtain rfl : token = _ := by simpa [Piece.token?] using ht
        exact ⟨line, rfl, Int.le_refl _, by simp only [ofPieces]; omega⟩
      | _ => simp [Piece.token?] at ht
    · obtain ⟨n, hn, hle, hge⟩ := htokens token ht
      exact ⟨n, hn, by omega, hge⟩

/-- Every token of a source stands on one of its lines. -/
theorem Scan.ofSource_line {source : String} {token : Token}
    (h : token ∈ (ofSource source).allTokens) :
    ∃ n : Int, token.line = .int n ∧ 1 ≤ n ∧ n ≤ 1 + source.toList.count '\n' := by
  have hlast : (ofSource source).lastLine = 1 + source.toList.count '\n' := by
    rw [ofSource, ofPieces_lastLine, Piece.ofSource_text]
  obtain ⟨hle, hall⟩ := ofPieces_line 1 (Piece.ofSource source.toList)
  rw [← hlast]
  rcases List.mem_append.mp h with ht | ht
  · exact hall token ht
  · obtain rfl := List.mem_singleton.mp ht
    exact ⟨_, rfl, hle, Int.le_refl _⟩

/-- A token of one of the sources that can be run. -/
def Token.IsOf (limits : Limits) (sources : List String) (token : Token) : Prop :=
  ∃ source ∈ sources, (parseSource limits source).diagnostics = [] ∧
    token ∈ (Scan.ofSource source).allTokens

variable {limits : Limits} {sources : List String}

theorem Token.IsOf.written {token : Token} (h : token.IsOf limits sources) : token.Written := by
  obtain ⟨source, -, -, ht⟩ := h
  rcases List.mem_append.mp ht with ht | ht
  · exact Scan.ofSource_written source token ht
  · obtain rfl := List.mem_singleton.mp ht
    exact Token.finish_written _

/-- The statements of a source have its tokens. -/
theorem parseSource_isOf {source : String} (hs : source ∈ sources)
    (hd : (parseSource limits source).diagnostics = []) :
    ∀ node ∈ (parseSource limits source).statements, IsStatement (Token.IsOf limits sources) node := by
  have htokens : ∀ token ∈ (Scan.ofSource source).tokens, token.IsOf limits sources :=
    fun token ht => ⟨source, hs, hd, List.mem_append_left _ ht⟩
  have hfinish : (Scan.ofSource source).finish.IsOf limits sources :=
    ⟨source, hs, hd, List.mem_append_right _ (List.mem_singleton_self _)⟩
  exact parseTokens_isStatement (fun _ h => h.written) limits htokens hfinish

theorem Store.initial_sound (W : Token → Prop) : Store.initial.Sound W := by
  intro closure hc
  rw [Store.initial_closures] at hc
  exact absurd hc (by simp)

namespace Session

/-! ## Functions of earlier sources -/

theorem untraced_store (session : Session) :
    session.untraced.machine.store = session.machine.store := rfl

theorem settle_sound (session : Session) {W : Token → Prop} {p : Eval Unit} {R : Unit → Prop}
    (hp : Eval.Safe W p R) {m : Machine} (hm : m.store.Sound W) :
    (session.settle (p m)).2.machine.store.Sound W := by
  cases h : p m with
  | ok => exact (hp.ok hm h).1
  | error stop =>
    have hleft := (hp.stop hm h).1
    cases stop <;> simpa [settle, report, enter] using hleft

variable {session : Session} {source : String}

theorem run_isOf (hl : session.limits = limits) (hs : source ∈ sources)
    (h : session.machine.store.Sound (Token.IsOf limits sources)) :
    (session.run source).2.machine.store.Sound (Token.IsOf limits sources) := by
  subst hl
  by_cases hd : (parseSource session.limits source).diagnostics = []
  · obtain ⟨entries, log, hrun⟩ := session.run_settled hd
    rw [hrun]
    exact settle_sound _ (.runProgram (fun _ h => h.written) _ _ (parseSource_isOf hs hd)) h
  · rwa [← untraced_store, (session.run_rejected hd).2.1, untraced_store]

/-- All functions that sources leave behind have tokens of the sources. -/
theorem after_isOf (hl : session.limits = limits) {earlier : List String}
    (hs : ∀ source ∈ earlier, source ∈ sources)
    (h : session.machine.store.Sound (Token.IsOf limits sources)) :
    (session.after earlier).machine.store.Sound (Token.IsOf limits sources) := by
  induction earlier generalizing session with
  | nil => exact h
  | cons source earlier ih =>
    have hlimits := (session.turn_entered source).limits.trans hl
    have hrun := run_isOf hl (hs source (by simp)) h
    exact ih hlimits (fun source hm => hs source (by simp [hm])) hrun

/-! ## What a source reports -/

/-- Running a source calls a native function that raises an error, with a call expression that ends
with the token. -/
def Raises (session : Session) (source : String) (cause : Fault) (paren : Token) : Prop :=
  (parseSource session.limits source).diagnostics = [] ∧
    Eval.Raises session.settings
      (.program session.limits.running (parseSource session.limits source).statements)
      session.machine cause paren

/-- A source that is run reports how its statements end. -/
theorem turn_faults (h : (parseSource session.limits source).diagnostics = []) :
    (session.turn source).reported = faults (Eval.runProgram session.settings session.limits.running
      (parseSource session.limits source).statements session.machine) := by
  obtain ⟨entries, log, hturn⟩ := session.turn_settled h
  have hagrees : Eval.Agrees Eq Eq Eq
      (Eval.runProgram session.settings session.limits.running
        (parseSource session.limits source).statements { session.machine with log })
      (Eval.runProgram session.settings session.limits.running
        (parseSource session.limits source).statements session.machine) :=
    Eval.runProgram_untraced _ _ _ rfl
  have hreported := congrArg Turn.reported hturn
  dsimp only at hreported
  rw [hreported]
  exact (settle_agrees session session hagrees).2.2

/-- What is reported of a running program is an error at a token of a source. If only native functions
raise it, then one has. -/
theorem reported_fault (h : session.machine.store.Sound (Token.IsOf session.limits sources))
    (hs : source ∈ sources) {d : Diagnostic} (hd : d ∈ (session.turn source).reported)
    (hruntime : d.origin.isSyntax = false) :
    d = Fault.nestingTooDeep.diagnostic none ∨
      ∃ cause token, d = Fault.diagnostic cause (some token) ∧ token.IsOf session.limits sources ∧
        (cause.isNative → session.Raises source cause token) := by
  by_cases hclean : (parseSource session.limits source).diagnostics = []
  · have safe := Eval.Safe.runProgram (fun _ h => h.written) session.settings session.limits.running
      (parseSource_isOf hs hclean)
    rw [turn_faults hclean] at hd
    unfold faults at hd
    split at hd
    · next cause token m' hrun =>
      obtain ⟨blamed, rfl, hraises⟩ := Eval.runProgram_fault hrun
      have hof := (safe.stop h hrun).2 blamed rfl
      exact .inr ⟨cause, blamed, List.mem_singleton.mp hd, hof, fun hn => ⟨hclean, hraises hn⟩⟩
    · exact .inl (List.mem_singleton.mp hd)
    · cases hd
  · rw [session.turn_rejected hclean] at hd
    rw [parseSource_isSyntax session.limits source d hd] at hruntime
    cases hruntime

/-- An error of a native function is reported at the closing parenthesis of its call, and there is no
other one. -/
theorem Raises.reported {cause : Fault} {paren : Token} (hr : session.Raises source cause paren) :
    (session.turn source).reported = [cause.diagnostic (some paren)] := by
  obtain ⟨hclean, hraises⟩ := hr
  obtain ⟨m', hrun⟩ := hraises.stops
  rw [turn_faults hclean, show Eval.runProgram _ _ _ _ = _ from hrun]
  rfl

theorem Raises.isOf {cause : Fault} {paren : Token} (hr : session.Raises source cause paren)
    (h : session.machine.store.Sound (Token.IsOf session.limits sources)) (hs : source ∈ sources) :
    paren.IsOf session.limits sources ∧ paren.kind = .rightParen := by
  obtain ⟨hclean, hraises⟩ := hr
  exact hraises.rightParen (fun _ h => h.written) (parseSource_isOf hs hclean) h

/-- Every error of a running program has a line. Whatever sources were run before, an error that a
source reports when it is run is on the line of a token of one of the sources that were run, so on one
of the lines of that source, unless an expression nests too deeply outside any call. If a native
function raises an error, however many calls of functions deep, then this error and no other is
reported, at the closing parenthesis of the call expression that called the native function; and an
error that only native functions raise is reported in this case only. -/
theorem turn_blamed (input : String) (verbosity : Nat) (clock : Float) (settings : Settings)
    (limits : Limits) (earlier : List String) (source : String) :
    let fresh : Session := { start input verbosity clock with settings, limits }
    let session := fresh.after earlier
    let sources := earlier ++ [source]
    (∀ d ∈ (session.turn source).reported, d.origin.isSyntax = false →
      d = Fault.nestingTooDeep.diagnostic none ∨
      ∃ cause token, d = Fault.diagnostic cause (some token) ∧
        (∃ program ∈ sources, (parseSource limits program).diagnostics = [] ∧
          token ∈ (Scan.ofSource program).allTokens ∧
          ∃ n : Int, d.line = .int n ∧ 1 ≤ n ∧ n ≤ 1 + program.toList.count '\n') ∧
        (cause.isNative → session.Raises source cause token)) ∧
    ∀ cause paren, session.Raises source cause paren →
      (session.turn source).reported = [cause.diagnostic (some paren)] ∧
      paren.kind = .rightParen ∧ paren.IsOf limits sources := by
  intro fresh session sources
  have hstart : fresh.limits = limits := rfl
  have hlimits : session.limits = limits := fresh.after_limits earlier
  have hsource : source ∈ sources := by simp [sources]
  have hsound : session.machine.store.Sound (Token.IsOf session.limits sources) := by
    rw [hlimits]
    exact after_isOf hstart (fun program hp => by simp [sources, hp]) (Store.initial_sound _)
  refine ⟨fun d hd hruntime => ?_, fun cause paren hr => ?_⟩
  · refine (reported_fault hsound hsource hd hruntime).imp_right fun h => ?_
    obtain ⟨cause, token, hd, hof, hraises⟩ := h
    rw [hlimits] at hof
    obtain ⟨program, hp, hclean, ht⟩ := hof
    obtain ⟨n, hn, hlines⟩ := Scan.ofSource_line ht
    have hline : d.line = .int n := by
      rw [hd]
      exact hn
    exact ⟨cause, token, hd, ⟨program, hp, hclean, ht, n, hline, hlines⟩, hraises⟩
  · obtain ⟨hof, hparen⟩ := hr.isOf hsound hsource
    exact ⟨hr.reported, hparen, hlimits ▸ hof⟩

/-- A function that measures what it gets, and one that leaves this to it. -/
def measuring : String :=
  "fun measure(x) \x7b\n  return len(\n    x);\n\x7d\nfun relay(x) \x7b return measure(x); \x7d"

def relaying : String := "print 1;\nrelay(nil);"

/-- The error that statements have stopped with. -/
def cause? : EStateM.Result Stop Machine Unit → Option Fault
  | .error (.fault cause _) _ => some cause
  | _ => none

/-- What cannot be measured is passed on by two functions of a source that was run before. The error is
on the third line of that source, where the native function is called. -/
theorem relayed_blamed :
    let session := after (start "" 0 1) [measuring]
    ∃ paren, session.Raises relaying (.lenArgument .nil) paren ∧
      (session.turn relaying).reported = [(Fault.lenArgument .nil).diagnostic (some paren)] ∧
      (session.turn relaying).reported.map (·.text) =
        ["[line 3] Runtime error (TypeMismatch): len expects a string or array, got nil."] ∧
      paren.kind = .rightParen ∧ paren.IsOf .standard [measuring, relaying] := by
  intro session
  have hclean : (parseSource session.limits relaying).diagnostics = [] :=
    List.isEmpty_iff.mp (by decide +kernel)
  have htext : (session.turn relaying).reported.map (·.text) =
      ["[line 3] Runtime error (TypeMismatch): len expects a string or array, got nil."] := by
    decide +kernel
  have hcause : cause? (Eval.runProgram session.settings session.limits.running
      (parseSource session.limits relaying).statements session.machine) =
      some (.lenArgument .nil) := by
    decide +kernel
  obtain ⟨paren, hraises⟩ : ∃ paren, session.Raises relaying (.lenArgument .nil) paren := by
    clear_value session
    unfold cause? at hcause
    split at hcause <;> cases hcause
    obtain ⟨paren, -, hraises⟩ := Eval.runProgram_fault ‹_›
    exact ⟨paren, hclean, hraises rfl⟩
  obtain ⟨-, hblamed⟩ := turn_blamed "" 0 1 ⟨standardRounds, some 0⟩ .standard [measuring] relaying
  obtain ⟨hreported, hparen, hof⟩ := hblamed (.lenArgument .nil) paren hraises
  exact ⟨paren, hraises, hreported, htext, hparen, hof⟩

end Session

end GameScript
