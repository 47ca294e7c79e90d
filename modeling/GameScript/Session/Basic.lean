import GameScript.Machine.Evaluator
import GameScript.Tree.Parser

/-! Running programs one after the other, with everything that they leave behind. -/

namespace GameScript

/-- What running a program gives. -/
inductive Outcome where
  /-- It ran to its end, or it was stopped by an error that has been reported. -/
  | finished (ok : Bool)
  /-- The tree is no program. -/
  | broken (defect : Defect)
  /-- A loop has gone round as often as is allowed. -/
  | endless
  deriving Repr, DecidableEq

/-- A session: the machine that programs run on, and all diagnostics. -/
structure Session where
  machine : Machine := {}
  ledger : Ledger := {}
  /-- What was written to the error stream. -/
  errors : String := ""
  settings : Settings
  limits : Limits := .standard

/-! ## Parsing with messages -/

/-- The trace message of a diagnostic. -/
def Diagnostic.entry (d : Diagnostic) : Trace.Entry := ⟨.reporting, "diagnostic: " ++ d.text⟩

/-- The trace message of a scan, which counts the token at the end. -/
def Scan.entry (scan : Scan) : Trace.Entry :=
  ⟨.scanning, "scanned " ++ Decimal.integerText (scan.tokens.length + 1) ++ " tokens"⟩

/-- Parses a program, and gives the trace messages of doing so. `earlier` diagnostics were reported
before. -/
def parseLogged (limits : Limits) (source : String) (earlier : Nat) :
    ParsedProgram × List Trace.Entry :=
  let scan := Scan.ofSource source
  let parsed := parseTokens limits scan.tokens scan.finish
  let all := scan.diagnostics ++ parsed.diagnostics
  let summary := "parsed " ++ Decimal.integerText parsed.statements.length ++ " statements (" ++
    Decimal.integerText (earlier + all.length) ++ " diagnostics)"
  (⟨parsed.statements, all⟩,
    scan.diagnostics.map Diagnostic.entry ++ scan.entry ::
      parsed.diagnostics.map Diagnostic.entry ++ [⟨.parsing, summary⟩])

namespace Session

/-! ## The streams -/

/-- How often a loop may go round before it counts as endless. -/
def standardRounds : Nat := 1000000000000

/-- A new session with the text of its input. -/
def start (input : String) (verbosity : Nat) (clock : Float) : Session where
  machine := { input := input.toList, clock }
  settings := ⟨standardRounds, some verbosity⟩

/-- Are trace messages kept? -/
def isTraced (session : Session) : Bool := 1 ≤ session.settings.tracing.getD 0

/-- Keeps trace messages, if any are kept. -/
def logAll (session : Session) (entries : List Trace.Entry) : Session :=
  if session.isTraced then
    { session with machine := { session.machine with log := session.machine.log ++ entries } }
  else session

def write (session : Session) (text : String) : Session :=
  { session with machine := { session.machine with output := session.machine.output ++ text } }

/-- Enters a diagnostic and writes it to the error stream. -/
def enter (session : Session) (d : Diagnostic) : Session :=
  { session with
    ledger := session.ledger.report d
    errors := session.errors ++ d.text ++ "\n" }

/-- Reports a diagnostic, and traces that. -/
def report (session : Session) (d : Diagnostic) : Session :=
  (session.enter d).logAll [d.entry]

/-- Takes what was written to the two streams since the last time. -/
def drain (session : Session) : (String × String) × Session :=
  ((session.machine.output, session.errors),
    { session with machine := { session.machine with output := "" }, errors := "" })

/-! ## Programs -/

/-- Parses a program and reports its diagnostics. -/
def parse (session : Session) (source : String) : ParsedProgram × Session :=
  let (parsed, entries) := parseLogged session.limits source session.ledger.items.size
  (parsed, (parsed.diagnostics.foldl enter session).logAll entries)

/-- Runs statements. An error stops the program and is reported. -/
def interpret (session : Session) (statements : List Node) : Outcome × Session :=
  let program : Eval Unit := do
    Eval.trace session.settings 1
      ("interpret " ++ Decimal.integerText statements.length ++ " statements")
    Eval.runProgram session.settings session.limits.running statements
  match program session.machine with
  | .ok _ machine => (.finished true, { session with machine })
  | .error stop machine =>
    let session := { session with machine }
    match stop with
    | .fault fault token =>
      (.finished false,
        (session.logAll [⟨.running, "runtime error: " ++ fault.text⟩]).report
          (fault.diagnostic token))
    | .overflow => (.finished false, session.report (Fault.nestingTooDeep.diagnostic none))
    | .endless => (.endless, session)
    | .broken defect => (.broken defect, session)

/-- Runs the statements that a node lists. -/
def interpretNode (session : Session) (program : Node) : Outcome × Session :=
  match program.items? with
  | some statements => session.interpret statements
  | none => (.broken .wrongShape, session)

/-- Parses and runs a program. Nothing runs if the source has errors. -/
def run (session : Session) (source : String) : Outcome × Session :=
  let (parsed, session) := session.parse source
  if parsed.diagnostics.any (·.origin.isSyntax) then (.finished false, session)
  else session.interpret parsed.statements

end Session

end GameScript
