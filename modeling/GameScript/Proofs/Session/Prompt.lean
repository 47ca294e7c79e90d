import GameScript.Proofs.Grammar.Exactness
import GameScript.Proofs.Grammar.Lone
import GameScript.Proofs.Safety.Session
import GameScript.Proofs.Scanner.Ending
import GameScript.Proofs.Session.Batch
import GameScript.Session.Repl

/-! # Lines at a prompt

A line is run as a program is, as it stands or with a semicolon after it, or else its errors are
reported and nothing is run. The semicolon is one more token, except after a comment up to the end of
the line: there an expression by itself is not run. -/

namespace GameScript

namespace Eval

/-- Evaluates an expression in the outermost scope and prints the text of its value. -/
def shows (settings : Settings) (room : Nat) (node : Node) : Eval Unit := do
  let value ← evaluate settings (room - 1) node Store.globals
  printLine (← textOf (room - 2) value)

theorem runProgram_print (settings : Settings) (room : Nat) (node : Node) :
    runProgram settings room [.print node] = shows settings room node := by
  match room with
  | 0 => rfl
  | 1 => rfl
  | room + 2 =>
    simp only [runProgram, execute, shows, bind_assoc, pure_bind]
    rfl

end Eval

namespace Session

/-! ## Traces do not matter -/

theorem ledger_eq_of_untraced {session session' : Session}
    (h : session.untraced = session'.untraced) : session.ledger = session'.ledger := by
  change session.untraced.ledger = session'.untraced.ledger
  rw [h]

theorem store_eq_of_untraced {session session' : Session}
    (h : session.untraced = session'.untraced) :
    session.machine.store = session'.machine.store := by
  change session.untraced.machine.store = session'.untraced.machine.store
  rw [h]

/-- What was traced before does not matter to how statements run. -/
theorem interpret_untraced {session session' : Session} (h : session.untraced = session'.untraced)
    (statements : List Node) :
    (session.interpret statements).1 = (session'.interpret statements).1 ∧
      (session.interpret statements).2.untraced = (session'.interpret statements).2.untraced := by
  have hsame : RelinedAll Eq statements statements :=
    MatchesAll.same (Token.Relined.same fun _ => rfl) (Token.Relined.same fun _ => rfl) statements
  have hrelined : session.Relined Eq session' := (Relined.same (fun _ => rfl) session).congr rfl h
  obtain ⟨hend, hleft⟩ := hrelined.interpret (fun _ => rfl) hsame
  exact ⟨hend, hleft.untraced_eq⟩

/-- Running statements reports errors of the running program only. -/
theorem interpret_reported (session : Session) (statements : List Node) :
    ∃ reported, (session.interpret statements).2.ledger = session.ledger.reportAll reported ∧
      ∀ d ∈ reported, d.origin.isSyntax = false := by
  have hone (cause : Fault) (token : Option Token) :
      ∀ d ∈ [cause.diagnostic token], d.origin.isSyntax = false := by
    intro d hd
    rw [List.mem_singleton.mp hd]
    rfl
  obtain ⟨log, hrun⟩ := session.interpret_eq statements
  rw [hrun]
  cases Eval.runProgram session.settings session.limits.running statements
    { session.machine with log } with
  | ok => exact ⟨[], rfl, nofun⟩
  | error stop machine =>
    cases stop with
    | fault cause token =>
      exact ⟨[cause.diagnostic token], by simp [settle, report, enter, Ledger.reportAll],
        hone cause token⟩
    | overflow =>
      exact ⟨[Fault.nestingTooDeep.diagnostic none],
        by simp [settle, report, enter, Ledger.reportAll], hone .nestingTooDeep none⟩
    | endless => exact ⟨[], rfl, nofun⟩
    | broken => exact ⟨[], rfl, nofun⟩

/-! ## Parsing a line -/

/-- The statements that a line runs: an expression by itself is printed. -/
def shown : List Node → List Node
  | [.expression inner] => [.print inner]
  | statements => statements

theorem shown_isStatement {W : Token → Prop} {statements : List Node}
    (h : ∀ node ∈ statements, IsStatement W node) :
    ∀ node ∈ shown statements, IsStatement W node := by
  unfold shown
  split
  · next inner =>
    intro node hn
    obtain rfl := List.mem_singleton.mp hn
    cases h _ (List.mem_singleton.mpr rfl) with
    | expression hinner => exact .print hinner
  · exact h

variable (session : Session) {line : String}

theorem tryLine_eq (source : String) : ∃ entries, session.tryLine source =
    ((parseSource session.limits source).statements,
      (parseSource session.limits source).diagnostics.isEmpty, session.logAll entries) := by
  have hclean : (!(parseSource session.limits source).diagnostics.any (·.origin.isSyntax)) =
      (parseSource session.limits source).diagnostics.isEmpty := by
    by_cases h : (parseSource session.limits source).diagnostics = []
    · rw [h]
      rfl
    · rw [parseSource_any_isSyntax h, List.isEmpty_eq_false_iff.mpr h]
      rfl
  rw [← hclean]
  exact ⟨(parseLogged session.limits source 0).2, rfl⟩

theorem parseLine_typed (h : (parseSource session.limits line).diagnostics = []) :
    ∃ session', session.parseLine line =
        (some (parseSource session.limits line).statements, session') ∧
      session'.untraced = session.untraced := by
  obtain ⟨entries, htry⟩ := session.tryLine_eq line
  rw [List.isEmpty_iff.mpr h] at htry
  refine ⟨session.logAll entries, ?_, session.logAll_untraced entries⟩
  unfold parseLine
  rw [htry]

theorem parseLine_completed (h : (parseSource session.limits line).diagnostics ≠ [])
    (hcompleted : (parseSource session.limits (line ++ ";")).diagnostics = []) :
    ∃ session', session.parseLine line =
        (some (parseSource session.limits (line ++ ";")).statements, session') ∧
      session'.untraced = session.untraced := by
  obtain ⟨entries, htry⟩ := session.tryLine_eq line
  obtain ⟨entries', htry'⟩ := (session.logAll entries).tryLine_eq (line ++ ";")
  rw [List.isEmpty_eq_false_iff.mpr h] at htry
  rw [logAll_limits, List.isEmpty_iff.mpr hcompleted] at htry'
  refine ⟨(session.logAll entries).logAll entries', ?_, ?_⟩
  · unfold parseLine
    rw [htry]
    dsimp only
    rw [htry']
  · rw [logAll_untraced, logAll_untraced]

theorem parseLine_neither (h : (parseSource session.limits line).diagnostics ≠ [])
    (hcompleted : (parseSource session.limits (line ++ ";")).diagnostics ≠ []) :
    ∃ log, session.parseLine line =
      (none, { session with machine := { session.machine with log } }) := by
  obtain ⟨entries, htry⟩ := session.tryLine_eq line
  obtain ⟨entries', htry'⟩ := (session.logAll entries).tryLine_eq (line ++ ";")
  rw [List.isEmpty_eq_false_iff.mpr h] at htry
  rw [logAll_limits, List.isEmpty_eq_false_iff.mpr hcompleted] at htry'
  obtain ⟨log, hlog⟩ := session.logAll_eq entries
  obtain ⟨log', hlog'⟩ := (session.logAll entries).logAll_eq entries'
  refine ⟨log', ?_⟩
  unfold parseLine
  rw [htry]
  dsimp only
  rw [htry', hlog', hlog]

/-! ## Handling a line -/

/-- The lines that are not programs. -/
def commands : List String := ["", "exit", "quit", "help"]

theorem handle_eq (h : line ∉ commands) :
    session.handle line = (true, session.evaluateLine line) := by
  simp only [commands, List.mem_cons, List.not_mem_nil, or_false, not_or] at h
  simp [handle, h]

theorem shown_of_ne {statements : List Node} (h : ∀ inner, statements ≠ [.expression inner]) :
    shown statements = statements := by
  unfold shown
  split
  · next inner => exact absurd rfl (h inner)
  · rfl

/-- What parses is run. -/
theorem evaluateLine_parsed {statements : List Node} {session' : Session}
    (hparse : session.parseLine line = (some statements, session'))
    (hsame : session'.untraced = session.untraced) :
    (session.evaluateLine line).untraced = (session.interpret (shown statements)).2.untraced := by
  unfold evaluateLine
  rw [hparse]
  split
  · next he => cases he
  · next inner _ he =>
    cases he
    refine (interpret_untraced ?_ _).2
    rw [logAll_untraced, hsame]
  · next hne he =>
    cases he
    rw [shown_of_ne fun inner hi => hne inner (by rw [hi])]
    exact (interpret_untraced hsame statements).2

/-- Handling a line runs statements, and reports nothing of the line itself. If the functions of the
session came from sources, the statements meet no defect. -/
structure Runs (line : String) (statements : List Node) : Prop where
  effect : (session.handle line).2.untraced = (session.interpret (shown statements)).2.untraced
  reported : ∃ reported, (session.handle line).2.ledger = session.ledger.reportAll reported ∧
    ∀ d ∈ reported, d.origin.isSyntax = false
  unbroken : session.Sound → (session.handle line).2.Sound ∧
    ∀ defect, (session.interpret (shown statements)).1 ≠ .broken defect

/-- Handling a line reports its errors and changes nothing else. -/
def Rejects (line : String) : Prop :=
  let ds := (parseSource session.limits line).diagnostics
  (session.handle line).2.untraced = untraced { session with
    ledger := session.ledger.reportAll ds
    errors := ds.foldl (fun errors d => errors ++ d.text ++ "\n") session.errors }

theorem runs_of_parsed {statements : List Node} {session' : Session} (hline : line ∉ commands)
    (hparse : session.parseLine line = (some statements, session'))
    (hsame : session'.untraced = session.untraced)
    (hstatements : ∀ node ∈ statements, IsStatement Token.Written node) :
    session.Runs line statements := by
  have heffect := session.evaluateLine_parsed hparse hsame
  have hhandle := session.handle_eq hline
  refine ⟨by rw [hhandle, heffect], ?_, fun hsound => ?_⟩
  · obtain ⟨reported, hledger, hruntime⟩ := session.interpret_reported (shown statements)
    refine ⟨reported, ?_, hruntime⟩
    rw [hhandle, ← hledger]
    exact ledger_eq_of_untraced heffect
  · have hends := interpret_ends hsound (shown_isStatement hstatements)
    refine ⟨?_, hends.not_broken⟩
    rw [hhandle, Sound, store_eq_of_untraced heffect]
    exact hends.sound

theorem runs_typed (hline : line ∉ commands)
    (h : (parseSource session.limits line).diagnostics = []) :
    session.Runs line (parseSource session.limits line).statements := by
  obtain ⟨session', hparse, hsame⟩ := session.parseLine_typed h
  exact session.runs_of_parsed hline hparse hsame (parseSource_isStatement _ _)

theorem runs_completed (hline : line ∉ commands)
    (h : (parseSource session.limits line).diagnostics ≠ [])
    (hcompleted : (parseSource session.limits (line ++ ";")).diagnostics = []) :
    session.Runs line (parseSource session.limits (line ++ ";")).statements := by
  obtain ⟨session', hparse, hsame⟩ := session.parseLine_completed h hcompleted
  exact session.runs_of_parsed hline hparse hsame (parseSource_isStatement _ _)

theorem rejects_neither (hline : line ∉ commands)
    (h : (parseSource session.limits line).diagnostics ≠ [])
    (hcompleted : (parseSource session.limits (line ++ ";")).diagnostics ≠ []) :
    session.Rejects line := by
  obtain ⟨log, hparse⟩ := session.parseLine_neither h hcompleted
  obtain ⟨entries, hreport⟩ :=
    Session.parse_snd { session with machine := { session.machine with log } } line
  unfold Rejects
  rw [session.handle_eq hline]
  unfold evaluateLine
  rw [hparse]
  dsimp only
  rw [hreport, logAll_untraced, foldl_enter]
  rfl

/-- The same tokens parse the same. -/
theorem parseSource_congr {limits : Limits} {source source' : String}
    (h : Scan.ofSource source = Scan.ofSource source') :
    parseSource limits source = parseSource limits source' := by
  unfold parseSource
  rw [h]

/-- A line other than a command is run as a program is, with an expression by itself printed: as it
stands if nothing is to report of it, and else with a semicolon after it, which is then one more token
at its end. If there is something to report both ways, it is reported of the line as it stands, and
nothing else changes. -/
theorem handle_refines (hline : line ∉ commands) :
    let typed := parseSource session.limits line
    let completed := parseSource session.limits (line ++ ";")
    (session.handle line).1 = true ∧
      (typed.diagnostics = [] → session.Runs line typed.statements) ∧
      (typed.diagnostics ≠ [] → completed.diagnostics = [] →
        Scan.ofSource (line ++ ";") = { Scan.ofSource line with
          tokens := (Scan.ofSource line).tokens ++ [Scan.semicolon (Scan.ofSource line).lastLine] } ∧
        session.Runs line completed.statements) ∧
      (typed.diagnostics ≠ [] → completed.diagnostics ≠ [] → session.Rejects line) := by
  intro typed completed
  refine ⟨by rw [session.handle_eq hline], session.runs_typed hline, fun h hcompleted => ?_,
    session.rejects_neither hline⟩
  refine ⟨Scan.ofSource_semicolon ?_, session.runs_completed hline h hcompleted⟩
  -- Inside a comment or a string the semicolon would change nothing.
  by_contra hopen
  have hsame := Scan.ofSource_semicolon_of_open (by simpa using hopen)
  exact h ((congrArg ParsedProgram.diagnostics (parseSource_congr hsame)).symm.trans hcompleted)

/-- A sum that lacks its semicolon, with a comment after it. -/
def sumLine : String := "1 + 2 /* sum */"

theorem sumLine_refines :
    let session := start "" 0 1
    sumLine ∉ commands ∧ (parseSource session.limits sumLine).diagnostics ≠ [] ∧
      (session.handle sumLine).1 = true ∧
      session.Runs sumLine (parseSource session.limits (sumLine ++ ";")).statements ∧
      (session.handle sumLine).2.machine.output = "3\n" := by
  intro session
  have hline : sumLine ∉ commands := by decide
  have htyped : (parseSource session.limits sumLine).diagnostics.isEmpty = false := by
    decide +kernel
  have hcompleted : (parseSource session.limits (sumLine ++ ";")).diagnostics = [] :=
    List.isEmpty_iff.mp (by decide +kernel)
  have hout : (session.handle sumLine).2.machine.output = "3\n" := by decide +kernel
  have htyped' := List.isEmpty_eq_false_iff.mp htyped
  obtain ⟨htrue, -, hruns, -⟩ := handle_refines session hline
  exact ⟨hline, htyped', htrue, (hruns htyped' hcompleted).2, hout⟩

/-! ## An expression by itself -/

/-- Printing evaluates the expression in the outermost scope and prints the text of its value. -/
theorem interpret_print (node : Node) : ∃ log, session.interpret [.print node] =
    session.settle (Eval.shows session.settings session.limits.running node
      { session.machine with log }) := by
  obtain ⟨log, hrun⟩ := session.interpret_eq [.print node]
  exact ⟨log, by rw [hrun, Eval.runProgram_print]⟩

/-- A line that is an expression, with blanks and comments anywhere, evaluates it and prints the text
of its value, or reports the error that this meets. Nothing is reported of the line itself. Only if
the line ends in a comment up to its end, nothing is run, and it is reported what is missing. -/
theorem handle_expression {node : Node} (hline : line ∉ commands)
    (hclean : (Scan.ofSource line).diagnostics = [])
    (hnode : Grammar.Derives .expression (Scan.ofSource line).tokens node)
    (hlimit : Grammar.Suffices session.limits
      ((Scan.ofSource line).tokens ++ [Scan.semicolon (Scan.ofSource line).lastLine])
      (Scan.ofSource line).finish) :
    (session.handle line).1 = true ∧
      if Piece.endsInComment line.toList then
        (parseSource session.limits line).diagnostics ≠ [] ∧ session.Rejects line
      else session.Runs line [.expression node] ∧ ∃ log, session.interpret [.print node] =
        session.settle (Eval.shows session.settings session.limits.running node
          { session.machine with log }) := by
  have hopen := Scan.endsOpen_of_clean hclean
  have htyped : (parseSource session.limits line).diagnostics ≠ [] := by
    intro hnone
    have hparsed : parseTokens session.limits (Scan.ofSource line).tokens
        (Scan.ofSource line).finish = ⟨_, []⟩ :=
      congrArg (ParsedProgram.mk _) (List.append_eq_nil_iff.mp hnone).2
    exact hnode.not_program (Grammar.parseTokens_sound rfl (Scan.ofSource_ne_eof line) hparsed)
  refine ⟨by rw [session.handle_eq hline], ?_⟩
  split
  · next hcomment =>
    have hsame := Scan.ofSource_semicolon_of_open (hopen.trans hcomment)
    refine ⟨htyped, session.rejects_neither hline htyped ?_⟩
    rwa [parseSource_congr hsame]
  · next hcomment =>
    have hscan := Scan.ofSource_semicolon (hopen.trans (Bool.eq_false_iff.mpr hcomment))
    have hcompleted : parseSource session.limits (line ++ ";") = ⟨[.expression node], []⟩ := by
      have hparsed := Grammar.parseTokens_of_program (hnode.program rfl) rfl hlimit
      unfold Scan.finish at hparsed
      simp only [parseSource, hscan, Scan.finish, hparsed, hclean, List.append_nil]
    have hruns := session.runs_completed hline htyped (by rw [hcompleted])
    rw [hcompleted] at hruns
    exact ⟨hruns, session.interpret_print node⟩

/-- A digit on the first line. -/
def digit (c : Char) : Token :=
  ⟨.number, .string (String.ofList [c]), .number (Decimal.ofFraction false [c] []), .int 1⟩

def plus : Token := ⟨.plus, .string "+", .null, .int 1⟩

theorem sum_derives : ∃ node, Grammar.Derives .expression [digit '1', plus, digit '2'] node := by
  have alone (level : Level) {ts : List Token} {node : Node}
      (h : Grammar.Derives (Grammar.operand level) ts node) :
      Grammar.Derives (.operators level) ts node := by
    have hchain := Grammar.Derives.operators h .chainEnd
    rwa [List.append_nil] at hchain
  have factor (c : Char) :
      Grammar.Derives (Grammar.operand .term) [digit c] (.literal (digit c).literal) :=
    alone .factor (.unsigned (.call (.constant (.inl rfl)) .suffixesEnd))
  have hplus : plus.kind ∈ Grammar.symbols .term := by decide
  have hsum := Grammar.Derives.operators (factor '1') (.chainStep hplus (factor '2') .chainEnd)
  exact ⟨_, .value (alone .or (alone .and (alone .equality (alone .comparison hsum))))⟩

theorem sumLine_shown :
    let session := start "" 0 1
    ∃ node, Grammar.Derives .expression (Scan.ofSource sumLine).tokens node ∧
      session.Runs sumLine [.expression node] ∧
      (session.handle sumLine).2.machine.output = "3\n" := by
  intro session
  obtain ⟨node, hnode⟩ := sum_derives
  have hderives : Grammar.Derives .expression (Scan.ofSource sumLine).tokens node := hnode
  have hcomment : Piece.endsInComment sumLine.toList = false := by decide +kernel
  have hout : (session.handle sumLine).2.machine.output = "3\n" := by decide +kernel
  have hall := handle_expression session (by decide) rfl hderives (.inl (by decide +kernel))
  rw [hcomment] at hall
  exact ⟨node, hderives, hall.2.1, hout⟩

/-- The same sum with a comment up to the end of the line. -/
def commentedSum : String := "1 + 2 // sum"

/-- It is an expression, but it is not evaluated. -/
theorem commentedSum_rejected :
    let session := start "" 0 1
    commentedSum ∉ commands ∧ (Scan.ofSource commentedSum).diagnostics.isEmpty ∧
      (∃ node, Grammar.Derives .expression (Scan.ofSource commentedSum).tokens node) ∧
      (session.handle commentedSum).2.machine.output = "" ∧
      (session.handle commentedSum).2.errors =
        "[line 1] Error at end: Expect ';' after expression.\n" := by
  refine ⟨by decide, by decide +kernel, ?_, by decide +kernel, by decide +kernel⟩
  exact sum_derives

end Session

end GameScript
