import GameScript.Proofs.Matching.Parser
import GameScript.Proofs.Steps
import GameScript.Session.Basic

/-! # What a session keeps

Trace messages change nothing but the log, and diagnostics nothing but the ledger and the error
stream. A source is run exactly if nothing is reported of it. -/

namespace GameScript

/-! ## Diagnostics of a source -/

theorem Scan.ofPieces_isSyntax (line : Int) (pieces : List Piece) :
    ∀ d ∈ (ofPieces line pieces).diagnostics, d.origin.isSyntax := by
  induction pieces generalizing line with
  | nil => nofun
  | cons piece rest ih =>
    intro d hd
    rcases List.mem_append.mp hd with hd | hd
    · cases piece with
      | problem reason text =>
        obtain rfl : d = _ := by simpa [Piece.diagnostic?] using hd
        rfl
      | _ => simp [Piece.diagnostic?] at hd
    · exact ih _ d hd

theorem Diagnostic.atToken_isSyntax (token : Token) (message : String) :
    (Diagnostic.atToken token message).origin.isSyntax := by
  unfold Diagnostic.atToken
  split <;> rfl

theorem parseTokens_isSyntax (limits : Limits) (tokens : List Token) (finish : Token) :
    ∀ d ∈ (parseTokens limits tokens finish).diagnostics, d.origin.isSyntax := by
  have respects : Parse.Respects Eq (Node.Matches Eq Eq) (Node.Matches Eq Eq) :=
    Node.Matches.respects (fun _ _ h => by rw [h]) (fun _ _ h => by rw [h]) fun _ _ h _ => h
  have same : List.Forall₂ Eq tokens tokens := by rw [List.forall₂_eq_eq_eq]
  have h := (parseTokens_related respects limits same (Eq.refl finish)).2
  rw [List.forall₂_same] at h
  intro d hd
  obtain ⟨token, _, message, -, rfl, -⟩ := h d hd
  exact Diagnostic.atToken_isSyntax token message

/-- Whatever is reported of a source keeps it from running. -/
theorem parseSource_isSyntax (limits : Limits) (source : String) :
    ∀ d ∈ (parseSource limits source).diagnostics, d.origin.isSyntax := by
  intro d hd
  rcases List.mem_append.mp hd with hd | hd
  · exact Scan.ofPieces_isSyntax _ _ d hd
  · exact parseTokens_isSyntax limits _ _ d hd

theorem parseSource_any_isSyntax {limits : Limits} {source : String}
    (h : (parseSource limits source).diagnostics ≠ []) :
    (parseSource limits source).diagnostics.any (·.origin.isSyntax) = true := by
  obtain ⟨d, hd⟩ := List.exists_mem_of_ne_nil _ h
  exact List.any_eq_true.mpr ⟨d, hd, parseSource_isSyntax limits source d hd⟩

namespace Session

@[simp] theorem start_limits (input : String) (verbosity : Nat) (clock : Float) :
    (start input verbosity clock).limits = .standard := rfl

variable (session : Session) (entries : List Trace.Entry)

/-! ## Trace messages -/

theorem logAll_eq :
    ∃ log, session.logAll entries = { session with machine := { session.machine with log } } := by
  unfold logAll
  split
  · exact ⟨_, rfl⟩
  · exact ⟨_, rfl⟩

theorem logAll_of_quiet (h : session.isTraced = false) : session.logAll entries = session := by
  unfold logAll
  rw [h]
  rfl

@[simp] theorem logAll_store : (session.logAll entries).machine.store = session.machine.store := by
  obtain ⟨_, h⟩ := session.logAll_eq entries
  rw [h]

@[simp] theorem logAll_input : (session.logAll entries).machine.input = session.machine.input := by
  obtain ⟨_, h⟩ := session.logAll_eq entries
  rw [h]

@[simp] theorem logAll_output : (session.logAll entries).machine.output = session.machine.output := by
  obtain ⟨_, h⟩ := session.logAll_eq entries
  rw [h]

@[simp] theorem logAll_clock : (session.logAll entries).machine.clock = session.machine.clock := by
  obtain ⟨_, h⟩ := session.logAll_eq entries
  rw [h]

@[simp] theorem logAll_ledger : (session.logAll entries).ledger = session.ledger := by
  obtain ⟨_, h⟩ := session.logAll_eq entries
  rw [h]

@[simp] theorem logAll_errors : (session.logAll entries).errors = session.errors := by
  obtain ⟨_, h⟩ := session.logAll_eq entries
  rw [h]

@[simp] theorem logAll_settings : (session.logAll entries).settings = session.settings := by
  obtain ⟨_, h⟩ := session.logAll_eq entries
  rw [h]

@[simp] theorem logAll_limits : (session.logAll entries).limits = session.limits := by
  obtain ⟨_, h⟩ := session.logAll_eq entries
  rw [h]

/-! ## Diagnostics -/

theorem foldl_enter (session : Session) (ds : List Diagnostic) :
    ds.foldl enter session = { session with
      ledger := session.ledger.reportAll ds
      errors := ds.foldl (fun errors d => errors ++ d.text ++ "\n") session.errors } := by
  induction ds generalizing session with
  | nil => rfl
  | cons d ds ih =>
    rw [List.foldl_cons, ih]
    rfl

/-! ## Statements -/

/-- What a session makes of how its statements have ended. -/
def settle (session : Session) : EStateM.Result Stop Machine Unit → Outcome × Session
  | .ok _ machine => (.finished true, { session with machine })
  | .error stop machine =>
    let session := { session with machine }
    match stop with
    | .fault fault token =>
      (.finished false,
        (session.logAll [⟨.running, "runtime error: " ++ fault.text⟩]).report
          (fault.diagnostic token))
    | .overflow => (.finished false, session.report (Fault.nestingTooDeep.diagnostic none))
    | .endless => (.endless, session)
    | .broken defect => (.broken defect, session)

/-- Statements run on the machine of the session, with something more in the trace. -/
theorem interpret_eq (statements : List Node) :
    ∃ log, session.interpret statements = session.settle
      (Eval.runProgram session.settings session.limits.running statements
        { session.machine with log }) := by
  obtain ⟨log, hlog⟩ := Eval.trace_ok session.settings 1
    ("interpret " ++ Decimal.integerText statements.length ++ " statements") session.machine
  refine ⟨log, ?_⟩
  unfold interpret
  dsimp only
  rw [bind_eq_of_ok hlog]
  rfl

theorem settle_finished {session : Session} {result : EStateM.Result Stop Machine Unit}
    (h : (session.settle result).1 = .finished true) : ∃ machine, result = .ok () machine := by
  cases result with
  | ok _ machine => exact ⟨machine, rfl⟩
  | error stop machine => cases stop <;> cases h

theorem settle_endless {session : Session} {result : EStateM.Result Stop Machine Unit}
    (h : (session.settle result).1 = .endless) :
    result = .error .endless (session.settle result).2.machine := by
  cases result with
  | ok => cases h
  | error stop machine =>
    cases stop with
    | endless => rfl
    | _ => cases h

theorem interpret_limits (statements : List Node) :
    (session.interpret statements).2.limits = session.limits := by
  obtain ⟨log, hlog⟩ := session.interpret_eq statements
  rw [hlog]
  cases Eval.runProgram session.settings session.limits.running statements
    { session.machine with log } with
  | ok => rfl
  | error stop machine => cases stop <;> simp [settle, report, enter]

theorem interpret_settings (statements : List Node) :
    (session.interpret statements).2.settings = session.settings := by
  obtain ⟨log, hlog⟩ := session.interpret_eq statements
  rw [hlog]
  cases Eval.runProgram session.settings session.limits.running statements
    { session.machine with log } with
  | ok => rfl
  | error stop machine => cases stop <;> simp [settle, report, enter]

/-! ## Programs -/

theorem parse_fst (source : String) :
    (session.parse source).1 = parseSource session.limits source := rfl

/-- Parsing reports the diagnostics of the source. -/
theorem parse_snd (source : String) :
    ∃ entries, (session.parse source).2 =
      ((parseSource session.limits source).diagnostics.foldl enter session).logAll entries :=
  ⟨_, rfl⟩

theorem parse_limits (source : String) : (session.parse source).2.limits = session.limits := by
  obtain ⟨entries, hp⟩ := session.parse_snd source
  rw [hp, logAll_limits, foldl_enter]

/-- A source of which something is reported does not run. -/
theorem run_of_reported {source : String}
    (h : (parseSource session.limits source).diagnostics ≠ []) :
    session.run source = (.finished false, (session.parse source).2) :=
  if_pos (parseSource_any_isSyntax h)

/-- A source of which nothing is reported runs, and parsing it leaves only trace messages. -/
theorem run_of_clean {source : String} (h : (parseSource session.limits source).diagnostics = []) :
    ∃ entries, session.run source =
      (session.logAll entries).interpret (parseSource session.limits source).statements := by
  have hany : ¬ (parseSource session.limits source).diagnostics.any (·.origin.isSyntax) := by simp [h]
  obtain ⟨entries, hp⟩ := session.parse_snd source
  have hrun : session.run source =
      (session.parse source).2.interpret (parseSource session.limits source).statements := if_neg hany
  rw [h] at hp
  exact ⟨entries, by rw [hrun, hp, List.foldl_nil]⟩

end Session

end GameScript
