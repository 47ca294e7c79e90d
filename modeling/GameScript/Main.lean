import GameScript.CommandLine.Run

/-! The program: commands on the files and streams of the system.

The files that a command may look at are read first, then it is carried out on them as data, and
what has changed is written back. -/

namespace GameScript.CommandLine

/-! ## Files -/

/-- Adds what stands at a location, seen through a path. What cannot be read counts as missing. -/
def look (files : Files) (path : Path) (place : Location) : IO Files := do
  try
    if ← (← IO.FS.realPath path.toString).isDir then
      pure { files with directories := place :: files.directories }
    else
      let text ← IO.FS.readFile path.toString
      pure (files.put place text)
  catch _ => pure files

/-- What stands at paths and on the way to them. -/
def survey (paths : List Path) : IO Files := do
  let mut files : Files := {}
  for path in paths do
    for count in [0 : path.parts.length + 1] do
      let start : Path := { path with parts := path.parts.take count }
      files ← look files start (start.parts.foldl Location.step (Location.start start))
  return files

/-- Makes the directories that are new, and writes the files that have changed. -/
def save (before after : Files) : IO Unit := do
  for place in after.directories.reverse do
    if !before.isDirectory place then IO.FS.createDirAll place.path.toString
  for (place, text) in before.changes after do
    IO.FS.writeFile place.path.toString text

/-! ## Streams -/

/-- All lines that are left. -/
partial def readAll (stream : IO.FS.Stream) (done : String) : IO String := do
  let line ← stream.getLine
  if line.isEmpty then return done else readAll stream (done ++ line)

def usage : String :=
  "usage: kwento [-h] [-v] [--tokens FILE | --print-ast FILE | --emit-ast FILE | --ast FILE | " ++
  "--config FILE] [-o DIR] [program]"

/-- What a command that breaks off says last. -/
def Failure.text : Failure → String
  | .defect cause => cause.message?.getD "not a program that can be used"
  | .file .isDirectory => "a directory stands in place of a file"
  | .file .fileExists => "a file stands in place of a directory"
  | .file .notDirectory => "a path leads through a file"
  | .file .missing => "no such file or directory"
  | .file .nameTooLong => "a name is too long"
  | .file .badName => "a name holds a character that no name can hold"
  | .json _ => "not a JSON text"
  | .literal error => error.message
  | .noDirectory => "no directory to write to"
  | .endless => "a loop does not end"

/-- The exit status of an ending, after its last words. -/
def Ending.conclude : Ending → IO UInt32
  | .exit code => pure code.toUInt32
  | .failed failure => do
    IO.eprintln ("Error: " ++ failure.text)
    pure 1

end GameScript.CommandLine

open GameScript CommandLine in
/-- Carries out the command line. -/
def main (args : List String) : IO UInt32 := do
  match Options.parse args with
  | .error .help => do
    IO.println usage
    return 0
  | .error .usage => do
    IO.eprintln usage
    return 2
  | .ok options => do
    let before ← survey options.command.reach
    let input ← readAll (← IO.getStdin) ""
    let clock := Float.ofNat (← IO.monoMsNow) / 1000
    let report := carryOut options before input clock
    save before report.files
    IO.print report.output
    IO.eprint report.errors
    report.ending.conclude
