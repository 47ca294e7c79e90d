import GameScript.Proofs.CommandLine.Routes
import GameScript.Proofs.Grammar.Calls

/-! # What commands leave in files

A command that writes a file has its text complete before it touches anything, and a command that
does not succeed leaves all files alone. Trees of programs are an exception: their file is emptied
first, and a program that parses can still have a tree too deep to be written. The trace is a file of
its own. -/

namespace GameScript.Files

variable {files files' : Files} {place : Location}

/-! ## Directories -/

/-- Directories that are made leave the files alone. -/
theorem makeAlong_files {parts : List String} (h : files.makeAlong place parts = .ok files') :
    files'.files = files.files := by
  induction parts generalizing files place with
  | nil =>
    unfold makeAlong at h
    split at h
    · cases h
    · cases h
      rfl
  | cons part rest ih =>
    unfold makeAlong at h
    split at h
    · cases h
    · split at h
      · cases h
      · simpa using ih h

theorem makeDirectory_text? {path : Path} (h : files.makeDirectory path = .ok files')
    (place : Location) : files'.text? place = files.text? place := by
  unfold makeDirectory at h
  split at h
  · cases h
  · split at h
    · cases h
    · rw [text?, text?, makeAlong_files h]

/-! ## Places -/

/-- A part of a path that leads somewhere goes one step further. -/
theorem follow_step {final : Location} {part : String} {rest : List String}
    (h : files.follow place (part :: rest) = .ok final) :
    files.follow (place.step part) rest = .ok final := by
  unfold follow at h
  split at h
  · cases h
  · split at h
    · cases h
    · split at h
      · cases h
      · exact h

theorem follow_append {final : Location} (parts : List String) {more : List String}
    (h : files.follow place (parts ++ more) = .ok final) :
    ∃ middle, files.follow middle more = .ok final := by
  induction parts generalizing place with
  | nil => exact ⟨place, h⟩
  | cons part rest ih => exact ih (follow_step h)

theorem locate_ok {path : Path} (h : files.locate path = .ok place) :
    files.follow (.start path) path.parts = .ok place := by
  unfold locate at h
  split at h
  · cases h
  · exact h

/-- A path to something in a directory leads to its name. -/
theorem locate_child {directory : Path} {name : String} (hname : name ≠ "..")
    (h : files.locate (directory.child name) = .ok place) : place.getLast? = some name := by
  obtain ⟨middle, hlast⟩ := follow_append directory.parts (locate_ok h)
  cases follow_step hlast
  simp [Location.step, hname]

/-- A text is written where the path leads, and another one after it in its place. -/
theorem write_twice {path : Path} {text : String} (h : files.write path text = .ok files')
    (text' : String) : ∃ place, files.locate path = .ok place ∧ files' = files.put place text ∧
      files'.write path text' = .ok (files'.put place text') := by
  obtain ⟨place, hl, hd, ha, rfl⟩ := write_ok h
  refine ⟨place, hl, rfl, ?_⟩
  rw [write_eq text' (locate_put text hl hd ha), isDirectory_put text ha, isDirectory_put text ha,
    if_neg hd, if_pos ha]

/-- Whether a file can be written does not depend on the text. -/
theorem write_error {path : Path} {text : String} {error : FileError}
    (h : files.write path text = .error error) (text' : String) :
    files.write path text' = .error error := by
  cases hl : files.locate path with
  | error =>
    unfold write at h ⊢
    rw [hl] at h ⊢
    exact h
  | ok place =>
    rw [write_eq _ hl] at h ⊢
    split at h
    · next hd => rw [if_pos hd, h]
    · next hd =>
      rw [if_neg hd]
      split at h
      · cases h
      · next ha => rw [if_neg ha, h]

end GameScript.Files

namespace GameScript.CommandLine

/-! ## Steps -/

namespace Work

/-- How a command ends and what it leaves. -/
def ends (work : Work Unit) (desk : Desk) : Ending × Desk :=
  match work desk with
  | .ok _ desk => (.ok, desk)
  | .error ending desk => (ending, desk)

variable {desk desk' : Desk} {files files' : Files}

/-- What is made of how a command ends and of what it leaves. -/
theorem ends_elim {γ : Type} (work : Work Unit) (desk : Desk) (f : Ending → Desk → γ) :
    (match work desk with
      | .ok _ desk => f .ok desk
      | .error ending desk => f ending desk) = f (work.ends desk).1 (work.ends desk).2 := by
  unfold ends
  cases work desk with
  | ok => rfl
  | error => rfl

theorem ends_bind_ok {α : Type} {step : Work α} {next : α → Work Unit} {a : α}
    (h : step desk = .ok a desk') : (step >>= next).ends desk = (next a).ends desk' := by
  unfold ends
  rw [bind_eq_of_ok h]

theorem ends_bind_error {α : Type} {step : Work α} {next : α → Work Unit} {ending : Ending}
    (h : step desk = .error ending desk') : (step >>= next).ends desk = (ending, desk') := by
  unfold ends
  rw [bind_eq_of_error h]

theorem changeFiles_ok {change : Files → Except FileError Files} (session : Session)
    (h : change files = .ok files') :
    changeFiles change ⟨session, files⟩ = .ok () ⟨session, files'⟩ := by
  unfold changeFiles
  rw [get_bind, orFail_bind h]
  rfl

theorem changeFiles_error {change : Files → Except FileError Files} {error : FileError}
    (session : Session) (h : change files = .error error) :
    changeFiles change ⟨session, files⟩ = .error (.failed (.file error)) ⟨session, files⟩ := by
  unfold changeFiles
  rw [get_bind]
  simp only [h]
  rfl

theorem writeFile_error {path : Path} {text : String} {error : FileError} (session : Session)
    (h : files.write path text = .error error) :
    writeFile path text ⟨session, files⟩ = .error (.failed (.file error)) ⟨session, files⟩ :=
  changeFiles_error session h

theorem orFail_ok {ε α : Type} {result : Except ε α} {a : α} (failure : ε → Failure)
    (h : result = .ok a) (desk : Desk) : orFail failure result desk = .ok a desk := by
  rw [h]
  rfl

theorem orFail_error {ε α : Type} {result : Except ε α} {error : ε} (failure : ε → Failure)
    (h : result = .error error) (desk : Desk) :
    orFail failure result desk = .error (.failed (failure error)) desk := by
  rw [h]
  rfl

theorem limits_ok (session : Session) (files : Files) :
    limits ⟨session, files⟩ = .ok session.limits ⟨session, files⟩ := rfl

theorem log_ok (entry : Trace.Entry) (session : Session) (files : Files) :
    log entry ⟨session, files⟩ = .ok () ⟨session.logAll [entry], files⟩ := rfl

/-- A file is read, or the command ends and nothing is written. -/
theorem readText_cases (path : Path) (session : Session) (files : Files) :
    (∃ source, Holds files path source ∧
      readText path ⟨session, files⟩ = .ok source ⟨session, files⟩) ∨
    ∃ ending session', ending ≠ .ok ∧
      readText path ⟨session, files⟩ = .error ending ⟨session', files⟩ := by
  cases he : files.entry path with
  | file text => exact .inl ⟨_, ⟨text, he, rfl⟩, readText_eq session he⟩
  | missing =>
    let message := "Error: file " ++ path.toString ++ " not found"
    refine .inr ⟨.noFile, { session with errors := session.errors ++ message ++ "\n" }, by decide, ?_⟩
    unfold readText
    rw [get_bind, he]
    rfl
  | directory =>
    refine .inr ⟨.failed (.file .isDirectory), session, by decide, ?_⟩
    unfold readText
    rw [get_bind, he]
    rfl
  | nameTooLong =>
    refine .inr ⟨.failed (.file .nameTooLong), session, by decide, ?_⟩
    unfold readText
    rw [get_bind, he]
    rfl

end Work

/-! ## Trees -/

/-- How writing the tree of a program ends, and with which files. -/
inductive Emitted (limits : Limits) (path : Path) (files : Files) : Ending → Files → Prop where
  /-- The source cannot be read or has errors, or its tree has no place. -/
  | refused {ending : Ending} : ending ≠ .ok → Emitted limits path files ending files
  /-- The program nests too deeply. What was in the file is lost. -/
  | emptied {source : String} {defect : Defect} {place : Location} : Holds files path source →
      (parseSource limits source).diagnostics = [] →
      Node.programToJson limits (parseSource limits source).statements = .error defect →
      files.locate (treeFile path) = .ok place →
      Emitted limits path files (.failed (.defect defect)) (files.put place "")
  | written {source : String} {datum : Json} {place : Location} : Holds files path source →
      (parseSource limits source).diagnostics = [] →
      Node.programToJson limits (parseSource limits source).statements = .ok datum →
      files.locate (treeFile path) = .ok place →
      Emitted limits path files .ok ((files.put place "").put place (datum.indented false 0))

/-- Writes the tree of statements, once they are parsed. -/
def Work.writeTree (path : Path) (statements : List Node) : Work Unit := do
  let target := treeFile path
  writeFile target ""
  let datum ← orFail .defect (Node.programToJson (← limits) statements)
  writeFile target (datum.indented false 0)
  printLine target.toString

theorem Work.emitTree_eq (path : Path) :
    emitTree path = (do
      let statements ← parseOrEnd (← readText path)
      writeTree path statements) := rfl

/-- The file is emptied before it is known whether the tree can be written. -/
theorem Work.writeTree_error {path : Path} {statements : List Node} {defect : Defect}
    {session : Session} {files blank : Files} (hw : files.write (treeFile path) "" = .ok blank)
    (hd : Node.programToJson session.limits statements = .error defect) :
    (writeTree path statements).ends ⟨session, files⟩ =
      (.failed (.defect defect), ⟨session, blank⟩) := by
  unfold writeTree
  rw [ends_bind_ok (writeFile_ok session hw), ends_bind_ok (limits_ok session blank)]
  exact ends_bind_error (orFail_error .defect hd _)

theorem Work.writeTree_ok {path : Path} {statements : List Node} {datum : Json} {place : Location}
    {session : Session} {files blank : Files} (hw : files.write (treeFile path) "" = .ok blank)
    (hplace : files.locate (treeFile path) = .ok place)
    (hd : Node.programToJson session.limits statements = .ok datum) :
    ∃ session', (writeTree path statements).ends ⟨session, files⟩ =
      (.ok, ⟨session', (files.put place "").put place (datum.indented false 0)⟩) := by
  obtain ⟨place', hplace', rfl, hagain⟩ := Files.write_twice hw (datum.indented false 0)
  obtain rfl : place = place' := Except.ok.inj (hplace.symm.trans hplace')
  unfold writeTree
  rw [ends_bind_ok (writeFile_ok session hw), ends_bind_ok (limits_ok session _),
    ends_bind_ok (orFail_ok .defect hd _), ends_bind_ok (writeFile_ok session hagain)]
  exact ⟨_, rfl⟩

/-- A source can be parsed without its tree being written. -/
theorem emitTree_tooDeep {path : Path} {source : String} (session : Session) {files blank : Files}
    (hh : Holds files path source) (hc : (parseSource session.limits source).diagnostics = [])
    (hd : ¬ (Node.sequence (parseSource session.limits source).statements).isWithin session.limits)
    (hw : files.write (treeFile path) "" = .ok blank) :
    (Work.emitTree path).ends ⟨session, files⟩ =
      (.failed (.defect .tooDeep), ⟨(session.parse source).2, blank⟩) := by
  have hdatum : Node.programToJson (session.parse source).2.limits
      (parseSource session.limits source).statements = .error .tooDeep := by
    rw [session.parse_limits, Node.programToJson, Node.toJsonWithin, if_neg hd]
    rfl
  rw [Work.emitTree_eq, Work.ends_bind_ok (hh.readText session),
    Work.ends_bind_ok (Work.parseOrEnd_clean session files hc), Work.writeTree_error hw hdatum]

theorem emitTree_emitted (path : Path) (session : Session) (files : Files) :
    let result := (Work.emitTree path).ends ⟨session, files⟩
    Emitted session.limits path files result.1 result.2.files := by
  dsimp only
  rw [Work.emitTree_eq]
  rcases Work.readText_cases path session files with ⟨source, hh, hread⟩ | ⟨ending, _, hne, hread⟩
  swap
  · rw [Work.ends_bind_error hread]
    exact .refused hne
  rw [Work.ends_bind_ok hread]
  by_cases hc : (parseSource session.limits source).diagnostics = []
  swap
  · rw [Work.ends_bind_error (Work.parseOrEnd_reported session files hc)]
    exact .refused nofun
  rw [Work.ends_bind_ok (Work.parseOrEnd_clean session files hc)]
  have hlimits := session.parse_limits source
  generalize (session.parse source).2 = parsed at hlimits
  cases hwrite : files.write (treeFile path) "" with
  | error error =>
    unfold Work.writeTree
    rw [Work.ends_bind_error (Work.writeFile_error parsed hwrite)]
    exact .refused nofun
  | ok blank =>
    obtain ⟨place, hplace, -, -, hblank⟩ := Files.write_ok hwrite
    cases hd : Node.programToJson session.limits (parseSource session.limits source).statements with
    | error defect =>
      rw [Work.writeTree_error hwrite (by rw [hlimits, hd]), hblank]
      exact .emptied hh hc hd hplace
    | ok datum =>
      obtain ⟨session', hends⟩ := Work.writeTree_ok hwrite hplace (by rw [hlimits, hd])
      rw [hends]
      exact .written hh hc hd hplace

/-! ## Game configurations -/

/-- How compiling a game configuration ends, and with which files. -/
inductive Compiled (limits : Limits) (path : Path) (source : String) (destination : Destination)
    (files : Files) : Ending → Files → Prop where
  | noDirectory : gameDirectory? path destination = none →
      Compiled limits path source destination files (.failed .noDirectory) files
  | unmade {directory : Path} {error : FileError} : gameDirectory? path destination = some directory →
      files.makeDirectory directory = .error error →
      Compiled limits path source destination files (.failed (.file error)) files
  | reported {directory : Path} {made : Files} {error : Config.Error} {line : Nat} :
      gameDirectory? path destination = some directory → files.makeDirectory directory = .ok made →
      Config.compile limits source = .error error → error.line? = some line →
      Compiled limits path source destination files .compileError made
  | unusable {directory : Path} {made : Files} {error : Config.Error} :
      gameDirectory? path destination = some directory → files.makeDirectory directory = .ok made →
      Config.compile limits source = .error error → error.line? = none →
      Compiled limits path source destination files (.failed (.literal error)) made
  | unwritten {directory : Path} {made : Files} {game : Config.Game} {error : FileError} :
      gameDirectory? path destination = some directory → files.makeDirectory directory = .ok made →
      Config.compile limits source = .ok game →
      made.write (gameFile path directory) (game.text ++ "\n") = .error error →
      Compiled limits path source destination files (.failed (.file error)) made
  | written {directory : Path} {made written : Files} {game : Config.Game} :
      gameDirectory? path destination = some directory → files.makeDirectory directory = .ok made →
      Config.compile limits source = .ok game →
      made.write (gameFile path directory) (game.text ++ "\n") = .ok written →
      Compiled limits path source destination files .ok written

/-- Compiles a game configuration, once the directory is there. -/
def Work.writeGame (path directory : Path) (source : String) : Work Unit := do
  match Config.compile (← limits) source with
  | .error error =>
    match error.line? with
    | some _ => do
      complain ("Error: " ++ error.message)
      throw .compileError
    | none => throw (.failed (.literal error))
  | .ok game => do
    log ⟨.compiling, "compiled game " ++ Text.quoted game.name ++ " with " ++
      Decimal.integerText game.sections ++ " section(s)"⟩
    let target := gameFile path directory
    writeFile target (game.text ++ "\n")
    log ⟨.compiling, "wrote " ++ target.toString⟩
    printLine target.toString

theorem Work.compileGame_eq {path directory : Path} {destination : Destination} (source : String)
    (h : gameDirectory? path destination = some directory) :
    compileGame path source destination = (do
      changeFiles (·.makeDirectory directory)
      writeGame path directory source) := by
  unfold compileGame
  rw [h]
  rfl

theorem writeGame_compiled {path directory : Path} {destination : Destination} {files made : Files}
    (source : String) (session : Session) (hd : gameDirectory? path destination = some directory)
    (hm : files.makeDirectory directory = .ok made) :
    let result := (Work.writeGame path directory source).ends ⟨session, made⟩
    Compiled session.limits path source destination files result.1 result.2.files := by
  dsimp only
  unfold Work.writeGame
  rw [Work.ends_bind_ok (Work.limits_ok session made)]
  cases hc : Config.compile session.limits source with
  | error error =>
    dsimp only
    cases hl : error.line? with
    | none => exact .unusable hd hm hc hl
    | some line => exact .reported hd hm hc hl
  | ok game =>
    dsimp only
    rw [Work.ends_bind_ok (Work.log_ok _ session made)]
    cases hw : made.write (gameFile path directory) (game.text ++ "\n") with
    | error error =>
      rw [Work.ends_bind_error (Work.writeFile_error _ hw)]
      exact .unwritten hd hm hc hw
    | ok written =>
      rw [Work.ends_bind_ok (Work.writeFile_ok _ hw)]
      exact .written hd hm hc hw

theorem compileGame_compiled (path : Path) (source : String) (destination : Destination)
    (session : Session) (files : Files) :
    let result := (Work.compileGame path source destination).ends ⟨session, files⟩
    Compiled session.limits path source destination files result.1 result.2.files := by
  dsimp only
  cases hd : gameDirectory? path destination with
  | none =>
    unfold Work.compileGame
    rw [hd]
    exact .noDirectory hd
  | some directory =>
    rw [Work.compileGame_eq source hd]
    cases hm : files.makeDirectory directory with
    | error error =>
      rw [Work.ends_bind_error (Work.changeFiles_error session hm)]
      exact .unmade hd hm
    | ok made =>
      rw [Work.ends_bind_ok (Work.changeFiles_ok session hm)]
      exact writeGame_compiled source session hd hm

/-! ## The trace -/

/-- Where the trace is. -/
def tracePlace : Location := ["debug.txt"]

theorem locate_trace {files : Files} {place : Location} (h : files.locate traceFile = .ok place) :
    place = tracePlace := by
  cases Files.follow_step (Files.locate_ok h)
  rfl

/-- A file whose name ends as that of a file with data is not the trace. -/
theorem locate_child_ne_trace {files : Files} {place : Location} {directory : Path}
    {name ending : String} (hending : ending.toList.getLast? = some 'n')
    (h : files.locate (directory.child (name ++ ending)) = .ok place) : place ≠ tracePlace := by
  have hlast : (name ++ ending).toList.getLast? = some 'n' := by
    rw [String.toList_append, List.getLast?_append, hending]
    rfl
  have hup : name ++ ending ≠ ".." := by
    intro he
    rw [he] at hlast
    exact absurd hlast (by decide)
  have hname := Files.locate_child hup h
  rintro rfl
  rw [← Option.some.inj hname] at hlast
  exact absurd hlast (by decide)

theorem treeFile_ne_trace {files : Files} {path : Path} {place : Location}
    (h : files.locate (treeFile path) = .ok place) : place ≠ tracePlace :=
  locate_child_ne_trace (by decide) h

theorem gameFile_ne_trace {files : Files} {path directory : Path} {place : Location}
    (h : files.locate (gameFile path directory) = .ok place) : place ≠ tracePlace :=
  locate_child_ne_trace (by decide) h

/-- Apart from the trace, no file is new or has another text. -/
def Untouched (before after : Files) : Prop :=
  ∀ place, place ≠ tracePlace → after.text? place = before.text? place

namespace Untouched

variable {first second third : Files}

theorem refl (files : Files) : Untouched files files := fun _ _ => rfl

theorem trans (h : Untouched first second) (h' : Untouched second third) : Untouched first third :=
  fun place hplace => (h' place hplace).trans (h place hplace)

end Untouched

theorem write_trace {files files' : Files} {text : String}
    (h : files.write traceFile text = .ok files') : Untouched files files' := by
  obtain ⟨place, hplace, -, -, rfl⟩ := Files.write_ok h
  obtain rfl := locate_trace hplace
  exact fun other hother => Files.text?_put_of_ne text hother

/-- Apart from the trace, one file is new or has another text. -/
structure Rewritten (before after : Files) (place : Location) (text : String) : Prop where
  apart : place ≠ tracePlace
  whole : after.text? place = some text
  others : ∀ other, other ≠ place → other ≠ tracePlace → after.text? other = before.text? other

theorem Rewritten.put {files : Files} {place : Location} (text : String) (h : place ≠ tracePlace) :
    Rewritten files (files.put place text) place text :=
  ⟨h, files.text?_put place text, fun _ hother _ => Files.text?_put_of_ne text hother⟩

theorem Rewritten.again {before after : Files} {place : Location} {text : String}
    (h : Rewritten before after place text) (text' : String) :
    Rewritten before (after.put place text') place text' :=
  ⟨h.apart, after.text?_put place text', fun other hother htrace =>
    (Files.text?_put_of_ne text' hother).trans (h.others other hother htrace)⟩

theorem Rewritten.within {first second third fourth : Files} {place : Location} {text : String}
    (hbefore : Untouched first second) (h : Rewritten second third place text)
    (hafter : Untouched third fourth) : Rewritten first fourth place text :=
  ⟨h.apart, (hafter place h.apart).trans h.whole, fun other hother htrace =>
    (hafter other htrace).trans ((h.others other hother htrace).trans (hbefore other htrace))⟩

/-- The files that a command finds. If anything is traced, the file for it is there and empty. -/
def opened (options : Options) (files : Files) : Except FileError Files :=
  if 1 ≤ options.verbosity then files.write traceFile "" else .ok files

theorem opened_untouched {options : Options} {files before : Files}
    (h : opened options files = .ok before) : Untouched files before := by
  unfold opened at h
  split at h
  · exact write_trace h
  · cases h
    exact .refl files

/-- What is left, with the trace in its file. -/
def finished (options : Options) (ending : Ending) (desk : Desk) : Report :=
  ⟨ending, desk.session.machine.output, desk.session.errors,
    if 1 ≤ options.verbosity then
      (desk.files.write traceFile (Trace.text desk.session.machine.log.toList)).toOption.getD
        desk.files
    else desk.files⟩

theorem finished_untouched (options : Options) (ending : Ending) (desk : Desk) :
    Untouched desk.files (finished options ending desk).files := by
  unfold finished
  dsimp only
  split
  · cases h : desk.files.write traceFile (Trace.text desk.session.machine.log.toList) with
    | error => exact .refl _
    | ok => exact write_trace h
  · exact .refl _

section CarryOut

variable {options : Options} {files : Files}

/-- Carrying out options ends as their command does, once the trace is there. -/
theorem carryOut_eq (input : String) (clock : Float) :
    carryOut options files input clock =
      let result := Work.ends (do
        if 1 ≤ options.verbosity then Work.writeFile traceFile ""
        Work.perform options.command) ⟨Session.start input options.verbosity clock, files⟩
      finished options result.1 result.2 := by
  unfold carryOut
  exact Work.ends_elim _ _ (finished options)

theorem carryOut_of_error {error : FileError} (input : String) (clock : Float)
    (h : opened options files = .error error) :
    carryOut options files input clock = finished options (.failed (.file error))
      ⟨Session.start input options.verbosity clock, files⟩ := by
  unfold opened at h
  split at h
  · next htraced =>
    rw [carryOut_eq, if_pos htraced, Work.ends_bind_error (Work.writeFile_error _ h)]
  · cases h

theorem carryOut_of_opened {before : Files} (input : String) (clock : Float)
    (h : opened options files = .ok before) :
    carryOut options files input clock =
      let result := (Work.perform options.command).ends
        ⟨Session.start input options.verbosity clock, before⟩
      finished options result.1 result.2 := by
  unfold opened at h
  split at h
  · next htraced => rw [carryOut_eq, if_pos htraced, Work.ends_bind_ok (Work.writeFile_ok _ h)]
  · next htraced =>
    cases h
    rw [carryOut_eq, if_neg htraced]

end CarryOut

/-! ## All or nothing -/

/-- A file that is found to hold a game configuration is compiled. -/
theorem perform_run {files : Files} {path source : String} (destination : Destination)
    (hh : Holds files (.ofString path) source) (hg : Config.isGame source) (session : Session) :
    (Work.perform (.run path destination)).ends ⟨session, files⟩ =
      (Work.perform (.compile path destination)).ends ⟨session, files⟩ := by
  simp only [Work.perform, Work.runFile]
  rw [Work.ends_bind_ok (hh.readText session), Work.ends_bind_ok (hh.readText session), hg]
  rfl

theorem perform_compile {files : Files} {path source : String} (destination : Destination)
    (hh : Holds files (.ofString path) source) (session : Session) :
    let result := (Work.perform (.compile path destination)).ends ⟨session, files⟩
    Compiled session.limits (.ofString path) source destination files result.1 result.2.files := by
  dsimp only [Work.perform]
  rw [Work.ends_bind_ok (hh.readText session)]
  exact compileGame_compiled _ _ _ _ _

/-- The statements of a program without errors in a file, and the place for their tree. -/
def HasTree (files : Files) (path : Path) (statements : List Node) (place : Location) : Prop :=
  ∃ source, Holds files path source ∧ (parseSource .standard source).diagnostics = [] ∧
    statements = (parseSource .standard source).statements ∧
    files.locate (treeFile path) = .ok place

/-- The game whose configuration is in a file, and the place for its data. -/
def HasGame (files : Files) (path : Path) (destination : Destination) (game : Config.Game)
    (place : Location) : Prop :=
  ∃ source directory made, Holds files path source ∧ Config.compile .standard source = .ok game ∧
    gameDirectory? path destination = some directory ∧ files.makeDirectory directory = .ok made ∧
    made.locate (gameFile path directory) = .ok place

theorem programToJson_error {limits : Limits} {statements : List Node} {defect : Defect}
    (h : Node.programToJson limits statements = .error defect) :
    ¬ (Node.sequence statements).isWithin limits ∧ defect = .tooDeep := by
  unfold Node.programToJson Node.toJsonWithin at h
  split at h
  · cases h
  · next hdeep =>
    cases h
    exact ⟨hdeep, rfl⟩

/-- What is emitted is the whole tree or nothing at all, unless the tree is too deep. -/
theorem Emitted.all_or_nothing {path : Path} {before after : Files} {ending : Ending}
    (h : Emitted .standard path before ending after) :
    (ending ≠ .ok ∧ Untouched before after) ∨
      ∃ statements place, HasTree before path statements place ∧
        ((∃ datum, Node.programToJson .standard statements = .ok datum ∧ ending = .ok ∧
            Rewritten before after place (datum.indented false 0)) ∨
          (¬ (Node.sequence statements).isWithin .standard ∧ ending = .failed (.defect .tooDeep) ∧
            Rewritten before after place "")) := by
  cases h with
  | refused hne => exact .inl ⟨hne, .refl before⟩
  | emptied hh hc hd hplace =>
    obtain ⟨hdeep, rfl⟩ := programToJson_error hd
    refine .inr ⟨_, _, ⟨_, hh, hc, rfl, hplace⟩, .inr ⟨hdeep, rfl, ?_⟩⟩
    exact .put "" (treeFile_ne_trace hplace)
  | written hh hc hd hplace =>
    refine .inr ⟨_, _, ⟨_, hh, hc, rfl, hplace⟩, .inl ⟨_, hd, rfl, ?_⟩⟩
    exact (Rewritten.put "" (treeFile_ne_trace hplace)).again _

theorem makeDirectory_untouched {files made : Files} {directory : Path}
    (h : files.makeDirectory directory = .ok made) : Untouched files made :=
  fun place _ => Files.makeDirectory_text? h place

/-- What is compiled is the whole game or nothing at all. -/
theorem Compiled.all_or_nothing {path : Path} {source : String} {destination : Destination}
    {before after : Files} {ending : Ending} (hh : Holds before path source)
    (h : Compiled .standard path source destination before ending after) :
    (ending ≠ .ok ∧ Untouched before after) ∨
      ∃ game place, HasGame before path destination game place ∧ ending = .ok ∧
        Rewritten before after place (game.text ++ "\n") := by
  cases h with
  | noDirectory | unmade => exact .inl ⟨nofun, .refl before⟩
  | reported _ hm | unusable _ hm | unwritten _ hm => exact .inl ⟨nofun, makeDirectory_untouched hm⟩
  | written hd hm hc hw =>
    obtain ⟨place, hplace, -, -, rfl⟩ := Files.write_ok hw
    refine .inr ⟨_, place, ⟨source, _, _, hh, hc, hd, hm, hplace⟩, rfl, ?_⟩
    exact .within (makeDirectory_untouched hm) (.put _ (gameFile_ne_trace hplace)) (.refl _)

theorem compile_all_or_nothing (path : String) (destination : Destination) (session : Session)
    (hlimits : session.limits = .standard) (before : Files) :
    let result := (Work.perform (.compile path destination)).ends ⟨session, before⟩
    (result.1 ≠ .ok ∧ Untouched before result.2.files) ∨
      ∃ game place, HasGame before (.ofString path) destination game place ∧ result.1 = .ok ∧
        Rewritten before result.2.files place (game.text ++ "\n") := by
  rcases Work.readText_cases (.ofString path) session before with
    ⟨source, hh, -⟩ | ⟨ending, session', hne, hread⟩
  · have hcompiled := perform_compile destination hh session
    rw [hlimits] at hcompiled
    exact hcompiled.all_or_nothing hh
  · dsimp only [Work.perform]
    rw [Work.ends_bind_error hread]
    exact .inl ⟨hne, .refl before⟩

/-- A command that compiles the game configuration in a file: it is told to, or it finds one there. -/
def CompilesGame (options : Options) (files : Files) (path : String) (destination : Destination) :
    Prop :=
  options.command = .compile path destination ∨
    options.command = .run path destination ∧ ∃ before source, opened options files = .ok before ∧
      Holds before (.ofString path) source ∧ Config.isGame source

theorem CompilesGame.perform {options : Options} {files before : Files} {path : String}
    {destination : Destination} (h : CompilesGame options files path destination)
    (hopened : opened options files = .ok before) (session : Session) :
    (Work.perform options.command).ends ⟨session, before⟩ =
      (Work.perform (.compile path destination)).ends ⟨session, before⟩ := by
  rcases h with hc | ⟨hc, found, source, hfound, hh, hg⟩
  · rw [hc]
  · rw [hopened] at hfound
    cases hfound
    rw [hc, perform_run destination hh hg]

/-- A command that writes the tree of a program or the data of a game writes all of it to one file and
ends well, or it touches no file. Only a program whose tree is too deep empties the file for it. -/
theorem writes_all_or_nothing (options : Options) (files : Files) (input : String) (clock : Float) :
    let report := carryOut options files input clock
    (∀ path, options.command = .emitTree path →
      (report.ending ≠ .ok ∧ Untouched files report.files) ∨
      ∃ before statements place, opened options files = .ok before ∧
        HasTree before (.ofString path) statements place ∧
        ((∃ datum, Node.programToJson .standard statements = .ok datum ∧ report.ending = .ok ∧
            Rewritten files report.files place (datum.indented false 0)) ∨
          (¬ (Node.sequence statements).isWithin .standard ∧
            report.ending = .failed (.defect .tooDeep) ∧ Rewritten files report.files place ""))) ∧
    ∀ path destination, CompilesGame options files path destination →
      (report.ending ≠ .ok ∧ Untouched files report.files) ∨
      ∃ before game place, opened options files = .ok before ∧
        HasGame before (.ofString path) destination game place ∧ report.ending = .ok ∧
        Rewritten files report.files place (game.text ++ "\n") := by
  dsimp only
  cases hopened : opened options files with
  | error error =>
    rw [carryOut_of_error input clock hopened]
    have hnothing : (Ending.failed (.file error)) ≠ .ok ∧ Untouched files _ :=
      ⟨nofun, finished_untouched options (.failed (.file error))
        ⟨Session.start input options.verbosity clock, files⟩⟩
    exact ⟨fun _ _ => .inl hnothing, fun _ _ _ => .inl hnothing⟩
  | ok before =>
    have hbefore := opened_untouched hopened
    rw [carryOut_of_opened input clock hopened]
    dsimp only
    constructor
    · intro path hc
      rw [hc]
      have hemitted := emitTree_emitted (.ofString path) (.start input options.verbosity clock) before
      dsimp only at hemitted
      rw [Session.start_limits] at hemitted
      rw [show Work.perform (.emitTree path) = Work.emitTree (.ofString path) from rfl]
      generalize (Work.emitTree _).ends _ = result at hemitted
      have hafter := finished_untouched options result.1 result.2
      rcases hemitted.all_or_nothing with
        ⟨hne, hu⟩ | ⟨statements, place, htree, ⟨datum, hd, hok, hr⟩ | ⟨hdeep, hend, hr⟩⟩
      · exact .inl ⟨hne, (hbefore.trans hu).trans hafter⟩
      · exact .inr ⟨before, statements, place, rfl, htree,
          .inl ⟨datum, hd, hok, .within hbefore hr hafter⟩⟩
      · exact .inr ⟨before, statements, place, rfl, htree,
          .inr ⟨hdeep, hend, .within hbefore hr hafter⟩⟩
    · intro path destination hc
      rw [hc.perform hopened]
      have hall :=
        compile_all_or_nothing path destination (.start input options.verbosity clock) rfl before
      dsimp only at hall
      generalize (Work.perform _).ends _ = result at hall
      have hafter := finished_untouched options result.1 result.2
      rcases hall with ⟨hne, hu⟩ | ⟨game, place, hgame, hok, hr⟩
      · exact .inl ⟨hne, (hbefore.trans hu).trans hafter⟩
      · exact .inr ⟨before, game, place, rfl, hgame, hok, .within hbefore hr hafter⟩

/-- A directory with a source that ends too early, and with what an earlier one was compiled to. -/
def brokenGame : Files := { files := [(["g.game"], "GAME g ["), (["g_config.json"], "kept")] }

/-- The command to compile it, with a trace. -/
def compileTraced : Options := { mode := some .config, subject := "g.game", verbosity := 1 }

theorem brokenGame_untouched :
    (carryOut compileTraced brokenGame "" 1).ending = .exit 65 ∧
      Untouched brokenGame (carryOut compileTraced brokenGame "" 1).files := by
  have hending : (carryOut compileTraced brokenGame "" 1).ending = .exit 65 := by decide +kernel
  refine ⟨hending, ?_⟩
  rcases (writes_all_or_nothing compileTraced brokenGame "" 1).2 "g.game" .besideSource (.inl rfl) with
    ⟨-, hu⟩ | ⟨_, _, _, -, -, hok, -⟩
  · exact hu
  · rw [hending] at hok
    cases hok

/-- A directory with a source, and with the tree of an earlier one. -/
def besideTree (source : String) : Files :=
  { files := [(["p.kw"], source), (["p.kw.ast.json"], "kept")] }

theorem besideTree_holds (source : String) (h : '\r' ∉ source.toList) :
    Holds (besideTree source) (.ofString "p.kw") source := by
  refine ⟨source, rfl, ?_⟩
  rw [Text.unifyLineEnds_of_notMem h, String.ofList_toList]

theorem manyCalls_not_within (n : Nat) (h : 1000 ≤ n) :
    ¬ (Node.sequence (parseSource .standard (manyCalls n)).statements).isWithin .standard := by
  rw [ManyCalls.parseSource_manyCalls (by decide) n]
  have hdepth := ManyCalls.depth_tree 1 2 (Nat.le_refl 1) ManyCalls.callee n
  intro hwithin
  have hle := of_decide_eq_true hwithin
  simp only [Node.depth, Node.depthOfAll, Limits.standard] at hle
  omega

/-- A program that parses, and whose tree is too deep: nothing is written, and the tree that was there
is lost. -/
theorem manyCalls_emptied :
    (besideTree (manyCalls 3000)).text? ["p.kw.ast.json"] = some "kept" ∧
      ∃ report, run ["--emit-ast", "p.kw"] (besideTree (manyCalls 3000)) "" 1 = .ok report ∧
        report.ending = .failed (.defect .tooDeep) ∧
        report.files.text? ["p.kw.ast.json"] = some "" := by
  have hdeep := manyCalls_not_within 3000 (by decide)
  have hclean : (parseSource .standard (manyCalls 3000)).diagnostics = [] := by
    rw [ManyCalls.parseSource_manyCalls (by decide)]
  have hholds := besideTree_holds _ (ManyCalls.return_notMem 3000)
  generalize manyCalls 3000 = source at hdeep hclean hholds ⊢
  have hpath : IsPath "p.kw" := ⟨by decide, rfl⟩
  obtain ⟨options, hparse, hquiet, hcommand⟩ := parse_emit hpath
  have hopened : opened options (besideTree source) = .ok (besideTree source) := by
    rw [opened, hquiet]
    rfl
  have hwrite : (besideTree source).write (treeFile (.ofString "p.kw")) "" =
      .ok { files := [(["p.kw"], source), (["p.kw.ast.json"], "")] } := rfl
  refine ⟨rfl, carryOut options (besideTree source) "" 1, ?_, ?_⟩
  · rw [run, hparse]
    rfl
  · have hends := emitTree_tooDeep (.start "" options.verbosity 1) hholds hclean hdeep hwrite
    rw [carryOut_of_opened "" 1 hopened, hcommand]
    dsimp only [Work.perform]
    rw [hends]
    unfold finished
    rw [hquiet]
    exact ⟨rfl, rfl⟩

end GameScript.CommandLine
