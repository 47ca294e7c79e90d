import GameScript.CommandLine.Run
import GameScript.Proofs.CommandLine.Files
import GameScript.Proofs.Encoding
import GameScript.Proofs.Json.Reader
import GameScript.Proofs.Json.Writer
import GameScript.Proofs.Safety.Session

/-! # Three ways to run a program

A program may be run from its file, from the tree that was written for it, or by a session that is
given its source. All three do the same. -/

namespace GameScript.CommandLine

/-! ## The command lines -/

/-- An argument that is a path and no option. -/
def IsPath (arg : String) : Prop := arg ≠ "" ∧ classifyAll [arg] = .ok [.argument arg]

theorem parse_path {path : String} (h : IsPath path) :
    ∃ options, Options.parse [path] = .ok options ∧ options.verbosity = 0 ∧
      options.command = .run path .besideSource := by
  refine ⟨{ program := some path, programPassed := true }, ?_, rfl, ?_⟩
  · unfold Options.parse
    rw [h.2]
    rfl
  · simp [Options.command, h.1]

/-- An option that names what to do with the file after it. -/
theorem parse_mode {spelling path : String} {switch : Switch} (h : IsPath path)
    (hs : spelling ≠ "--") (hc : classify spelling = .ok (.option { switch, short := false }))
    (hv : switch.takesValue) (hm : switch.isMode) :
    Options.parse [spelling, path] = .ok { mode := some switch, subject := path } := by
  have hitems : classifyAll [spelling, path] =
      .ok [.option { switch, short := false }, .argument path] := by
    rw [classifyAll, if_neg hs, hc, h.2]
    rfl
  unfold Options.parse
  rw [hitems]
  cases switch with
  | help | verbose | outputDirectory => cases hm
  | _ => rfl

theorem parse_emit {path : String} (h : IsPath path) :
    ∃ options, Options.parse ["--emit-ast", path] = .ok options ∧ options.verbosity = 0 ∧
      options.command = .emitTree path := by
  refine ⟨{ mode := some .emitTree, subject := path }, ?_, rfl, by simp [Options.command, h.1]⟩
  exact parse_mode h (by decide) rfl rfl rfl

theorem parse_tree {path : String} (h : IsPath path) :
    ∃ options, Options.parse ["--ast", path] = .ok options ∧ options.verbosity = 0 ∧
      options.command = .runTree path := by
  refine ⟨{ mode := some .runTree, subject := path }, ?_, rfl, by simp [Options.command, h.1]⟩
  exact parse_mode h (by decide) rfl rfl rfl

/-- What a command leaves. -/
def report (ending : Ending) (desk : Desk) : Report :=
  ⟨ending, desk.session.machine.output, desk.session.errors, desk.files⟩

/-- A command that is not traced leaves the files as its steps do. -/
theorem run_quiet {args : List String} {options : Options} {command : Command} {files : Files}
    {input : String} {clock : Float}
    (h : Options.parse args = .ok options ∧ options.verbosity = 0 ∧ options.command = command) :
    run args files input clock = .ok
      (match Work.perform command ⟨Session.start input 0 clock, files⟩ with
      | .ok _ desk => report .ok desk
      | .error ending desk => report ending desk) := by
  obtain ⟨hp, hv, rfl⟩ := h
  unfold run
  rw [hp]
  show Except.ok (carryOut options files input clock) = _
  unfold carryOut
  simp only [hv]
  rfl

/-! ## The steps of commands -/

namespace Work

variable {session : Session} {files : Files} {path : Path} {source : String}

theorem inSession_bind {α β : Type} (action : Session → α × Session) (f : α → Work β) :
    (inSession action >>= f) ⟨session, files⟩ =
      f (action session).1 ⟨(action session).2, files⟩ := rfl

theorem limits_bind {β : Type} (f : Limits → Work β) :
    (limits >>= f) ⟨session, files⟩ = f session.limits ⟨session, files⟩ := rfl

theorem orFail_bind {ε α β : Type} {failure : ε → Failure} {result : Except ε α} {a : α}
    (h : result = .ok a) (f : α → Work β) (desk : Desk) :
    (orFail failure result >>= f) desk = f a desk := by
  rw [h]
  rfl

theorem readText_eq {text : String} (session : Session) (h : files.entry path = .file text) :
    readText path ⟨session, files⟩ =
      .ok (String.ofList (Text.unifyLineEnds text.toList)) ⟨session, files⟩ := by
  unfold readText
  rw [get_bind, h]
  rfl

theorem parseOrEnd_reported (session : Session) (files : Files)
    (h : (parseSource session.limits source).diagnostics ≠ []) :
    parseOrEnd source ⟨session, files⟩ =
      .error .compileError ⟨(session.parse source).2, files⟩ := by
  unfold parseOrEnd
  rw [inSession_bind, Session.parse_fst, if_pos (parseSource_any_isSyntax h)]
  rfl

theorem parseOrEnd_clean (session : Session) (files : Files)
    (h : (parseSource session.limits source).diagnostics = []) :
    parseOrEnd source ⟨session, files⟩ = .ok (parseSource session.limits source).statements
      ⟨(session.parse source).2, files⟩ := by
  unfold parseOrEnd
  rw [inSession_bind, Session.parse_fst, h]
  rfl

theorem writeFile_ok {text : String} {files' : Files} (session : Session)
    (h : files.write path text = .ok files') :
    writeFile path text ⟨session, files⟩ = .ok () ⟨session, files'⟩ := by
  unfold writeFile changeFiles
  rw [get_bind, orFail_bind h]
  rfl

end Work

/-! ## The three ways -/

/-- How a command ends that has run a program. -/
def endingOf : Outcome → Ending
  | .finished true => .ok
  | .finished false => .runtimeError
  | .broken defect => .failed (.defect defect)
  | .endless => .failed .endless

/-- What a command leaves that has run a program. -/
def reportOf (result : Outcome × Session) (files : Files) : Report :=
  report (endingOf result.1) ⟨result.2, files⟩

theorem settle_report (outcome : Outcome) (desk : Desk) :
    (match Work.settle outcome desk with
    | .ok _ desk => report .ok desk
    | .error ending desk => report ending desk) = report (endingOf outcome) desk := by
  match outcome with
  | .finished true | .finished false | .broken _ | .endless => rfl

variable {files : Files} {path source : String}

/-- A session that is not traced runs a clean source without any sign of having parsed it. -/
theorem start_run (input : String) (clock : Float)
    (h : (parseSource .standard source).diagnostics = []) :
    ((Session.start input 0 clock).parse source).2 = Session.start input 0 clock ∧
      (Session.start input 0 clock).run source =
        (Session.start input 0 clock).interpret (parseSource .standard source).statements := by
  generalize hs : Session.start input 0 clock = session
  have hlimits : session.limits = .standard := by
    rw [← hs]
    rfl
  have quiet : session.isTraced = false := by
    rw [← hs]
    rfl
  rw [← hlimits] at h ⊢
  constructor
  · obtain ⟨entries, hp⟩ := session.parse_snd source
    rw [hp, h, List.foldl_nil, session.logAll_of_quiet _ quiet]
  · obtain ⟨entries, hr⟩ := session.run_of_clean h
    rw [hr, session.logAll_of_quiet _ quiet]

/-- A file that holds a source. -/
def Holds (files : Files) (path : Path) (source : String) : Prop :=
  ∃ text, files.entry path = .file text ∧ source = String.ofList (Text.unifyLineEnds text.toList)

theorem Holds.readText {path : Path} (h : Holds files path source) (session : Session) :
    Work.readText path ⟨session, files⟩ = .ok source ⟨session, files⟩ := by
  obtain ⟨text, hf, rfl⟩ := h
  exact Work.readText_eq session hf

theorem run_path (input : String) (clock : Float) (hp : IsPath path)
    (hh : Holds files (.ofString path) source) (hg : Config.isGame source = false)
    (hc : (parseSource .standard source).diagnostics = []) :
    run [path] files input clock =
      .ok (reportOf ((Session.start input 0 clock).run source) files) := by
  obtain ⟨options, hopt⟩ := parse_path hp
  obtain ⟨hparse, hrun⟩ := start_run input clock hc
  have hclean := Work.parseOrEnd_clean (.start input 0 clock) files hc
  rw [hparse] at hclean
  rw [run_quiet hopt, hrun]
  simp only [Work.perform, Work.runFile]
  rw [bind_eq_of_ok (hh.readText _), hg]
  simp only [Bool.false_eq_true, if_false]
  rw [bind_eq_of_ok hclean, Work.inSession_bind, settle_report]
  rfl

/-- A file of a source with errors is not run. -/
theorem run_path_reported (input : String) (clock : Float) (hp : IsPath path)
    (hh : Holds files (.ofString path) source) (hg : Config.isGame source = false)
    (hc : (parseSource .standard source).diagnostics ≠ []) :
    run [path] files input clock = .ok
      (report .compileError ⟨((Session.start input 0 clock).parse source).2, files⟩) := by
  obtain ⟨options, hopt⟩ := parse_path hp
  have hend := Work.parseOrEnd_reported (.start input 0 clock) files hc
  rw [run_quiet hopt]
  simp only [Work.perform, Work.runFile]
  rw [bind_eq_of_ok (hh.readText _), hg]
  simp only [Bool.false_eq_true, if_false]
  rw [bind_eq_of_error hend]

theorem run_emit_reported (input : String) (clock : Float) (hp : IsPath path)
    (hh : Holds files (.ofString path) source) (hc : (parseSource .standard source).diagnostics ≠ []) :
    run ["--emit-ast", path] files input clock = .ok
      (report .compileError ⟨((Session.start input 0 clock).parse source).2, files⟩) := by
  obtain ⟨options, hopt⟩ := parse_emit hp
  have hend := Work.parseOrEnd_reported (.start input 0 clock) files hc
  rw [run_quiet hopt]
  simp only [Work.perform, Work.emitTree]
  rw [bind_eq_of_ok (hh.readText _), bind_eq_of_error hend]

/-- The tree of a clean source can be written beside it and is then there. -/
theorem run_emit {datum : Json} {blank : Files} (input : String) (clock : Float)
    (hp : IsPath path) (hh : Holds files (.ofString path) source)
    (hc : (parseSource .standard source).diagnostics = [])
    (hw : files.write (treeFile (.ofString path)) "" = .ok blank)
    (hd : Node.programToJson .standard (parseSource .standard source).statements = .ok datum) :
    ∃ emitted, run ["--emit-ast", path] files input clock = .ok emitted ∧ emitted.ending = .ok ∧
      emitted.errors = "" ∧
      emitted.files.entry (treeFile (.ofString path)) = .file (datum.indented false 0) := by
  obtain ⟨options, hopt⟩ := parse_emit hp
  obtain ⟨hparse, -⟩ := start_run input clock hc
  have hclean := Work.parseOrEnd_clean (.start input 0 clock) files hc
  rw [hparse] at hclean
  obtain ⟨written, hagain, hentry⟩ := Files.write_again hw (datum.indented false 0)
  refine ⟨_, run_quiet hopt, ?_⟩
  simp only [Work.perform, Work.emitTree]
  rw [bind_eq_of_ok (hh.readText _), bind_eq_of_ok hclean, bind_eq_of_ok (Work.writeFile_ok _ hw),
    Work.limits_bind, Session.start_limits, Work.orFail_bind hd,
    bind_eq_of_ok (Work.writeFile_ok _ hagain)]
  exact ⟨rfl, rfl, hentry⟩

theorem run_tree {tree : String} {datum : Json} {statements : List Node} (input : String)
    (clock : Float) (hp : IsPath tree)
    (hf : files.entry (.ofString tree) = .file (datum.indented false 0))
    (hr : Json.read Limits.standard.reading (datum.indented false 0) = .ok datum)
    (hd : Node.programOfJson .standard datum = .ok (.sequence statements)) :
    run ["--ast", tree] files input clock =
      .ok (reportOf ((Session.start input 0 clock).interpret statements) files) := by
  obtain ⟨options, hopt⟩ := parse_tree hp
  have hread := Work.readText_eq (.start input 0 clock) hf
  rw [Json.unifyLineEnds_indented] at hread
  rw [run_quiet hopt]
  simp only [Work.perform, Work.runTree]
  rw [Work.limits_bind, bind_eq_of_ok hread, Session.start_limits, Work.orFail_bind hr,
    Work.limits_bind, Session.start_limits, Work.orFail_bind hd, Work.inSession_bind, settle_report]
  rfl

/-- The outcome of a clean source decides how a command ends that runs it. -/
theorem endingOf_start (input : String) (clock : Float)
    (hc : (parseSource .standard source).diagnostics = []) :
    let outcome := ((Session.start input 0 clock).run source).1
    outcome = .endless ∨ (outcome = .finished true ∧ endingOf outcome = .exit 0) ∨
      (outcome = .finished false ∧ endingOf outcome = .exit 70) := by
  obtain ⟨-, hrun⟩ := start_run input clock hc
  have ends := Session.interpret_ends (Session.start_sound input 0 clock)
    (parseSource_isStatement .standard source)
  rw [hrun]
  generalize (Session.start input 0 clock).interpret _ = result at ends
  cases ends with
  | done => exact .inr (.inl ⟨rfl, rfl⟩)
  | stopped => exact .inr (.inr ⟨rfl, rfl⟩)
  | endless => exact .inl rfl

/-- Parsing prints nothing. -/
theorem start_parse_output (input : String) (clock : Float) (source : String) :
    ((Session.start input 0 clock).parse source).2.machine.output = "" := by
  obtain ⟨entries, hp⟩ := (Session.start input 0 clock).parse_snd source
  rw [hp, Session.foldl_enter, Session.logAll_output]
  rfl

/-- A file with a source of a program, and a path to where its tree is written. -/
structure Placed (files : Files) (path tree source : String) : Prop where
  isPath : IsPath path
  isTree : IsPath tree
  beside : Path.ofString tree = treeFile (.ofString path)
  holds : Holds files (.ofString path) source
  writable : ∃ blank, files.write (treeFile (.ofString path)) "" = .ok blank
  program : Config.isGame source = false

/-- The commands that run a program directly and by way of its tree do what a session does. -/
theorem clean_routes {tree : String} (input : String) (clock : Float)
    (placed : Placed files path tree source) (hc : (parseSource .standard source).diagnostics = [])
    (hw : (Node.sequence (parseSource .standard source).statements).isWithin .standard)
    (hj : ∀ datum, Node.programToJson .standard (parseSource .standard source).statements = .ok datum →
      Json.read Limits.standard.reading (datum.indented false 0) = .ok datum) :
    ∃ emitted, emitted.ending = .exit 0 ∧
      run ["--emit-ast", path] files input clock = .ok emitted ∧
      run [path] files input clock =
        .ok (reportOf ((Session.start input 0 clock).run source) files) ∧
      run ["--ast", tree] emitted.files input clock =
        .ok (reportOf ((Session.start input 0 clock).run source) emitted.files) := by
  obtain ⟨blank, hblank⟩ := placed.writable
  obtain ⟨datum, hd, hback⟩ :=
    Node.programOfJson_programToJson (parseSource_isStatement .standard source) hw
  obtain ⟨emitted, hemit, hending, -, hentry⟩ :=
    run_emit input clock placed.isPath placed.holds hc hblank hd
  rw [← placed.beside] at hentry
  have hdirect := run_path input clock placed.isPath placed.holds placed.program hc
  have hreload := run_tree input clock placed.isTree hentry (hj datum hd) hback
  rw [← (start_run input clock hc).2] at hreload
  exact ⟨emitted, hending, hemit, hdirect, hreload⟩

/-- A program that leaves out a value, a branch and what is given back, and stops with an error inside
a function. -/
def negation : String :=
  "var a;\nfun f(x) \x7b if (x) return; print -x; \x7d\nprint [1, \"b\"];\nf(a);"

/-- A directory with nothing but the program. -/
def programFiles : Files := { files := [(["p.kw"], negation)] }

theorem negation_placed : Placed programFiles "p.kw" "p.kw.ast.json" negation where
  isPath := ⟨by decide, rfl⟩
  isTree := ⟨by decide, rfl⟩
  beside := by decide +kernel
  holds := ⟨negation, by decide +kernel, by decide +kernel⟩
  writable := ⟨_, rfl⟩
  program := by decide +kernel

theorem negation_reads : ∀ datum,
    Node.programToJson .standard (parseSource .standard negation).statements = .ok datum →
      Json.read Limits.standard.reading (datum.indented false 0) = .ok datum := by
  have hlegible : (match Node.programToJson .standard (parseSource .standard negation).statements with
      | .ok datum => datum.legible Limits.standard.reading
      | .error _ => true) = true := by decide +kernel
  intro datum h
  rw [h] at hlegible
  exact Json.read_indented hlegible 0

theorem negation_run :
    ((Session.start "" 0 1).run negation).1 = .finished false ∧
    ((Session.start "" 0 1).run negation).2.machine.output = "[1, b]\n" ∧
    ((Session.start "" 0 1).run negation).2.errors =
      "[line 2] Runtime error (TypeMismatch): Operand of '-' must be a number, got nil.\n" := by
  decide +kernel

end GameScript.CommandLine
