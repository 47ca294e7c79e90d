/-! Paths and files as data: what is there before a command runs and what it leaves. -/

namespace GameScript

/-- A path: what it begins with, and its parts. -/
structure Path where
  /-- Nothing for a path from the current directory, else one slash or exactly two. -/
  root : String := ""
  parts : List String
  deriving Repr, DecidableEq

namespace Path

/-- The parts of a text between slashes. Empty parts and single dots say nothing. -/
def splitParts (text : String) : List String :=
  ((text.toList.splitOn '/').map String.ofList).filter fun part => part ≠ "" && part ≠ "."

/-- What a text begins with. More than two slashes count as one. -/
def rootOf (text : String) : String :=
  match (text.toList.takeWhile (· = '/')).length with
  | 0 => ""
  | 2 => "//"
  | _ => "/"

def ofString (text : String) : Path := ⟨rootOf text, splitParts text⟩

/-- The text of a path; that of the current directory is a dot. -/
def toString (path : Path) : String :=
  let text := path.root ++ String.intercalate "/" path.parts
  if text = "" then "." else text

/-- The last part. -/
def name (path : Path) : String := path.parts.getLast?.getD ""

/-- The path without its last part. -/
def parent (path : Path) : Path := { path with parts := path.parts.dropLast }

def child (path : Path) (name : String) : Path := { path with parts := path.parts ++ [name] }

/-- The longest name of a file or directory, in bytes. -/
def maxName : Nat := 255

/-- The longest path, in bytes. -/
def maxPath : Nat := 4095

/-- Is a name too long for a file or directory? -/
def isLongName (name : String) : Bool := maxName < name.utf8ByteSize

/-- Is a path too long as a whole? -/
def isLong (path : Path) : Bool := maxPath < path.toString.utf8ByteSize

/-- Does a path hold the one character that no name can hold? -/
def isBad (path : Path) : Bool := path.toString.toList.contains (Char.ofNat 0)

/-- A name without its last suffix. A point at either end of the name begins no suffix. -/
def stemOf (name : String) : String :=
  let suffix := name.toList.reverse.takeWhile (· ≠ '.')
  let before := (name.toList.reverse.dropWhile (· ≠ '.')).drop 1
  if suffix.isEmpty || before.isEmpty then name else String.ofList before.reverse

def stem (path : Path) : String := stemOf path.name

end Path

/-- Why a file cannot be used. -/
inductive FileError where
  /-- It is a directory. -/
  | isDirectory
  /-- A file stands where a directory should be made. -/
  | fileExists
  /-- A file stands where a directory is passed through. -/
  | notDirectory
  /-- It is not there. -/
  | missing
  /-- A name on the way, or the whole path, is too long. -/
  | nameTooLong
  /-- A name holds a character that no name can hold. -/
  | badName
  deriving Repr, DecidableEq

/-- What stands at a path. -/
inductive Entry where
  | missing
  | file (text : String)
  | directory
  /-- Nothing can, because the path is too long. -/
  | nameTooLong
  deriving Repr, DecidableEq

/-- Where something is: the names that lead to it from the current directory. Leading pairs of dots go
above that directory, and a slash stands for the topmost one. -/
abbrev Location := List String

namespace Location

/-- The location that a path starts from. -/
def start (path : Path) : Location := if path.root = "" then [] else ["/"]

/-- The directory above. There is none above the topmost. -/
def above (place : Location) : Location :=
  if place.all (· = "..") then ".." :: place
  else if place = ["/"] then place
  else place.dropLast

/-- One part further. -/
def step (place : Location) (part : String) : Location :=
  if part = ".." then place.above else place ++ [part]

/-- The path to a location. -/
def path : Location → Path
  | "/" :: parts => ⟨"/", parts⟩
  | parts => ⟨"", parts⟩

end Location

/-- Files with their texts, and directories. -/
structure Files where
  files : List (Location × String) := []
  directories : List Location := []

namespace Files

/-- The text of a file. -/
def text? (files : Files) (place : Location) : Option String :=
  (files.files.find? (·.1 = place)).map (·.2)

/-- The current directory, those above it and the topmost are there; others were made, or they hold
something. -/
def isDirectory (files : Files) (place : Location) : Bool :=
  place.all (· = "..") || place = ["/"] ||
    files.files.any (fun entry => place.isPrefixOf entry.1 && place ≠ entry.1) ||
    files.directories.any (fun other => place.isPrefixOf other)

/-- Follows the parts of a path from a location. A file leads nowhere, only a directory that is there
has one above it, and in one that is there no name is too long. -/
def follow (files : Files) (place : Location) : List String → Except FileError Location
  | [] => .ok place
  | part :: rest =>
    if (files.text? place).isSome then .error .notDirectory
    else if part = ".." && !files.isDirectory place then .error .missing
    else if Path.isLongName part && files.isDirectory place then .error .nameTooLong
    else files.follow (place.step part) rest

/-- Where a path leads. -/
def locate (files : Files) (path : Path) : Except FileError Location :=
  if path.isLong then .error .nameTooLong else files.follow (.start path) path.parts

/-- What stands at a path. -/
def entry (files : Files) (path : Path) : Entry :=
  match files.locate path with
  | .error .nameTooLong => .nameTooLong
  | .error _ => .missing
  | .ok place =>
    match files.text? place with
    | some text => .file text
    | none => if files.isDirectory place then .directory else .missing

/-- Replaces the text of a file, or makes the file. -/
def put (files : Files) (place : Location) (text : String) : Files :=
  if (files.text? place).isSome then
    { files with
      files := files.files.map fun entry => if entry.1 = place then (place, text) else entry }
  else { files with files := files.files ++ [(place, text)] }

/-- Writes a file in a directory that is there. -/
def write (files : Files) (path : Path) (text : String) : Except FileError Files := do
  let place ← files.locate path
  if files.isDirectory place then throw .isDirectory
  if files.isDirectory place.dropLast then pure (files.put place text) else throw .missing

/-- Makes the directories on the way from a location, unless they are there. -/
def makeAlong (files : Files) (place : Location) : List String → Except FileError Files
  | [] =>
    if (files.text? place).isSome then .error .fileExists
    else .ok { files with directories := place :: files.directories }
  | part :: rest =>
    if (files.text? place).isSome then .error .notDirectory
    else if Path.isLongName part then .error .nameTooLong
    else
      makeAlong { files with directories := place :: files.directories } (place.step part) rest

/-- Makes a directory and those on the way to it, unless they are there. -/
def makeDirectory (files : Files) (path : Path) : Except FileError Files :=
  if path.isBad then .error .badName
  else if path.isLong then .error .nameTooLong
  else files.makeAlong (.start path) path.parts

/-- The files that are new or have another text than before. -/
def changes (before after : Files) : List (Location × String) :=
  after.files.filter fun entry => before.text? entry.1 ≠ some entry.2

end Files

end GameScript
