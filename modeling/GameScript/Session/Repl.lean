import GameScript.Session.Basic
import GameScript.Text.Blank

/-! A session at a prompt, one line at a time. -/

namespace GameScript.Session

/-! ## Lines -/

def banner : String := "Kwento REPL (type 'help' for help, 'exit' to quit)\n"

def helpText : String :=
  "Enter Kwento statements, one line at a time:\n" ++
  "  var x = 1;            declare a variable\n" ++
  "  print x + 1;          print a value\n" ++
  "  x * 2                 a lone expression prints its value\n" ++
  "Variables and functions persist between lines.\n" ++
  "Commands: help, exit, quit\n"

/-- The statements of a line, the messages of parsing it, and whether it has no errors. -/
def tryLine (session : Session) (source : String) : List Node × Bool × Session :=
  let (parsed, entries) := parseLogged session.limits source 0
  (parsed.statements, !parsed.diagnostics.any (·.origin.isSyntax), session.logAll entries)

/-- The statements of a line as it is, or else with a semicolon after it; nothing if both have
errors. No diagnostics are reported. -/
def parseLine (session : Session) (line : String) : Option (List Node) × Session :=
  match session.tryLine line with
  | (statements, true, session) => (some statements, session)
  | (_, false, session) =>
    match session.tryLine (line ++ ";") with
    | (statements, true, session) => (some statements, session)
    | (_, false, session) => (none, session)

/-- Evaluates a line. A lone expression prints its value. The errors of a line that does not parse
are those of the line as it is. -/
def evaluateLine (session : Session) (line : String) : Session :=
  match session.parseLine line with
  | (none, session) => (session.parse line).2
  | (some [.expression inner], session) =>
    ((session.logAll [⟨.prompting, "repl expression: " ++ line⟩]).interpret [.print inner]).2
  | (some statements, session) => (session.interpret statements).2

/-- Handles a line; false ends the session. -/
def handle (session : Session) (line : String) : Bool × Session :=
  if line = "" then (true, session)
  else if line = "exit" || line = "quit" then (false, session)
  else if line = "help" then (true, session.write helpText)
  else (true, session.evaluateLine line)

/-! ## The prompt -/

/-- Where lines come from: a text of their own, or the input that the program reads from too. -/
inductive Source where
  | own (rest : List Char)
  | shared

/-- The next line with its line end, which is empty at the end of the source. -/
def nextLine (session : Session) : Source → List Char × Source × Session
  | .own rest =>
    let (line, rest) := Eval.splitLine rest
    (line, .own rest, session)
  | .shared =>
    let (line, rest) := Eval.splitLine session.machine.input
    (line, .shared, { session with machine := { session.machine with input := rest } })

/-- Prompts for lines and handles them until the end. -/
def promptLoop : Nat → Source → Session → Session
  | 0, _, session => session
  | fuel + 1, source, session =>
    match (session.write "> ").nextLine source with
    | ([], _, session) => session.write "\n"
    | (line, source, session) =>
      match session.handle (String.ofList (Text.strip line)) with
      | (true, session) => promptLoop fuel source session
      | (false, session) => session

/-- A session at the prompt. Every line has at least one character, which bounds their number. -/
def prompt (session : Session) (source : Source) : Session :=
  let size := match source with
    | .own rest => rest.length
    | .shared => session.machine.input.length
  promptLoop (size + 1) source (session.write banner)

end GameScript.Session
