import GameScript.CommandLine.Files
import GameScript.CommandLine.Options
import GameScript.Config.Compile
import GameScript.Json.Reader
import GameScript.Session.Repl
import GameScript.Tree.Encoding
import GameScript.Tree.Printer

/-! Carrying out commands on files and streams given as data. -/

namespace GameScript.CommandLine

/-- Why a command breaks off. -/
inductive Failure where
  | defect (defect : Defect)
  | file (error : FileError)
  | json (error : Json.ReadError)
  /-- A literal of a game configuration stands for nothing. -/
  | literal (error : Config.Error)
  /-- The directory asked for is none. -/
  | noDirectory
  /-- A loop of the program has gone round as often as is allowed. -/
  | endless
  deriving Repr, DecidableEq

/-- How a command ends. -/
inductive Ending where
  | exit (code : Nat)
  | failed (failure : Failure)
  deriving Repr, DecidableEq

namespace Ending

def ok : Ending := .exit 0

/-- A file is not there. -/
def noFile : Ending := .exit 1

/-- The source has errors, and nothing was run. -/
def compileError : Ending := .exit 65

/-- An error stopped the program. -/
def runtimeError : Ending := .exit 70

end Ending

/-! ## The files of a command -/

/-- The file that the tree of a program is written to, beside the program. -/
def treeFile (path : Path) : Path := path.parent.child (path.name ++ ".ast.json")

/-- The directory for a compiled game configuration: the one asked for, or that of the source. -/
def gameDirectory? (path : Path) : Destination → Option Path
  | .besideSource => some path.parent
  | .directory directory => some (.ofString directory)
  | .unusable => none

/-- The file in a directory that a game configuration is compiled to. -/
def gameFile (path directory : Path) : Path := directory.child (path.stem ++ "_config.json")

/-- Where the trace is written. -/
def traceFile : Path := ⟨"", ["debug.txt"]⟩

/-- All paths that a command may look at, those of directories apart that lead to one of them. -/
def Command.reach : Command → List Path
  | .showTokens path | .showTree path | .runTree path => [traceFile, .ofString path]
  | .emitTree path => [traceFile, .ofString path, treeFile (.ofString path)]
  | .compile path destination | .run path destination =>
    [traceFile, .ofString path] ++
      ((gameDirectory? (.ofString path) destination).map (gameFile (.ofString path))).toList
  | .prompt => [traceFile]

/-! ## Steps -/

/-- What a command works on: a session for its streams and trace, and the files. -/
structure Desk where
  session : Session
  files : Files

/-- A step of a command, which may end it. -/
abbrev Work := EStateM Ending Desk

namespace Work

/-! ## Streams and files -/

def modifySession (change : Session → Session) : Work Unit :=
  modify fun desk => { desk with session := change desk.session }

/-- Runs a step of the session. -/
def inSession {α : Type} (action : Session → α × Session) : Work α :=
  modifyGet fun desk =>
    let (result, session) := action desk.session
    (result, { desk with session })

/-- Writes a line to the output. -/
def printLine (line : String) : Work Unit := modifySession (·.write (line ++ "\n"))

/-- Writes a line to the error stream. -/
def complain (line : String) : Work Unit :=
  modifySession fun session => { session with errors := session.errors ++ line ++ "\n" }

def log (entry : Trace.Entry) : Work Unit := modifySession (·.logAll [entry])

def limits : Work Limits := return (← get).session.limits

/-- Goes on with the result of something that may fail. -/
def orFail {ε α : Type} (failure : ε → Failure) : Except ε α → Work α
  | .ok result => pure result
  | .error error => throw (.failed (failure error))

/-- Reads a file as lines of text. -/
def readText (path : Path) : Work String := do
  match (← get).files.entry path with
  | .missing => do
    complain ("Error: file " ++ path.toString ++ " not found")
    throw .noFile
  | .directory => throw (.failed (.file .isDirectory))
  | .nameTooLong => throw (.failed (.file .nameTooLong))
  | .file text => pure (String.ofList (Text.unifyLineEnds text.toList))

def changeFiles (change : Files → Except FileError Files) : Work Unit := do
  let files ← orFail .file (change (← get).files)
  modify fun desk => { desk with files }

def writeFile (path : Path) (text : String) : Work Unit := changeFiles (·.write path text)

/-! ## Commands -/

/-- Lists the tokens of a program. -/
def showTokens (path : Path) : Work Unit := do
  let scan := Scan.ofSource (← readText path)
  modifySession (scan.diagnostics.foldl Session.report)
  log scan.entry
  for token in scan.allTokens do printLine token.listing
  if !scan.diagnostics.isEmpty then throw .compileError

/-- The statements of a program that has no errors. -/
def parseOrEnd (source : String) : Work (List Node) := do
  let parsed ← inSession (·.parse source)
  if parsed.diagnostics.any (·.origin.isSyntax) then throw .compileError
  else pure parsed.statements

/-- Shows the statements of a program in prefix form. -/
def showTree (path : Path) : Work Unit := do
  for node in ← parseOrEnd (← readText path) do
    printLine (← orFail .defect (node.renderWithin (← limits))).displayBare

/-- Writes the tree of a program to a file beside it. -/
def emitTree (path : Path) : Work Unit := do
  let statements ← parseOrEnd (← readText path)
  let target := treeFile path
  writeFile target ""
  let datum ← orFail .defect (Node.programToJson (← limits) statements)
  writeFile target (datum.indented false 0)
  printLine target.toString

/-- Ends with the outcome of a program. -/
def settle : Outcome → Work Unit
  | .finished true => pure ()
  | .finished false => throw .runtimeError
  | .broken defect => throw (.failed (.defect defect))
  | .endless => throw (.failed .endless)

/-- Runs the tree in a file. -/
def runTree (path : Path) : Work Unit := do
  let datum ← orFail .json (Json.read (← limits).reading (← readText path))
  let program ← orFail .defect (Node.programOfJson (← limits) datum)
  settle (← inSession (·.interpretNode program))

/-- Compiles a game configuration to a file, in a directory that is made if need be. -/
def compileGame (path : Path) (source : String) (destination : Destination) : Work Unit := do
  let directory ← match gameDirectory? path destination with
    | some directory => pure directory
    | none => throw (.failed .noDirectory)
  changeFiles (·.makeDirectory directory)
  match Config.compile (← limits) source with
  | .error error =>
    match error.line? with
    | some _ => do
      complain ("Error: " ++ error.message)
      throw .compileError
    | none => throw (.failed (.literal error))
  | .ok game => do
    log ⟨.compiling, "compiled game " ++ Text.quoted game.name ++ " with " ++
      Decimal.integerText game.sections ++ " section(s)"⟩
    let target := gameFile path directory
    writeFile target (game.text ++ "\n")
    log ⟨.compiling, "wrote " ++ target.toString⟩
    printLine target.toString

/-- Runs a program, or compiles a game configuration. -/
def runFile (path : Path) (destination : Destination) : Work Unit := do
  let source ← readText path
  if Config.isGame source then compileGame path source destination
  else
    let statements ← parseOrEnd source
    settle (← inSession (·.interpret statements))

def perform : Command → Work Unit
  | .showTokens path => showTokens (.ofString path)
  | .showTree path => showTree (.ofString path)
  | .emitTree path => emitTree (.ofString path)
  | .runTree path => runTree (.ofString path)
  | .compile path destination => do
    let path := Path.ofString path
    compileGame path (← readText path) destination
  | .run path destination => runFile (.ofString path) destination
  | .prompt => modifySession (·.prompt .shared)

end Work

/-! ## The whole command line -/

/-- What carrying out a command line gives. -/
structure Report where
  ending : Ending
  output : String
  errors : String
  files : Files

/-- Carries out options. The trace file is there from the start if anything is traced. -/
def carryOut (options : Options) (files : Files) (input : String) (clock : Float) : Report :=
  let traced := 1 ≤ options.verbosity
  let work : Work Unit := do
    if traced then Work.writeFile traceFile ""
    Work.perform options.command
  let finish (ending : Ending) (desk : Desk) : Report :=
    let files :=
      if traced then
        ((desk.files.write traceFile (Trace.text desk.session.machine.log.toList)).toOption).getD desk.files
      else desk.files
    ⟨ending, desk.session.machine.output, desk.session.errors, files⟩
  match work ⟨Session.start input options.verbosity clock, files⟩ with
  | .ok _ desk => finish .ok desk
  | .error ending desk => finish ending desk

/-- Carries out a command line, unless it is refused. -/
def run (args : List String) (files : Files) (input : String) (clock : Float) :
    Except Refusal Report := do
  return carryOut (← Options.parse args) files input clock

end GameScript.CommandLine
