import GameScript.Proofs.Safety.Session
import GameScript.Proofs.Session.Batch

/-! # What a session records

The diagnostics of a session are kept from its start, and so are the flags that they raise. Whether a
source is run depends on what is reported of that source alone. A source that is not run leaves the
machine as it was, so the others run as if it had never been given. -/

namespace GameScript

/-! ## The ledger -/

namespace Ledger

/-- The text that the error stream has got for all diagnostics. -/
def rendered (ledger : Ledger) : String := String.join (ledger.messages.map (· ++ "\n"))

/-- The flags tell whether there are diagnostics of each sort. -/
structure Flagged (ledger : Ledger) : Prop where
  hadError : ledger.hadError ↔ ∃ d ∈ ledger.items.toList, d.origin.isSyntax
  hadRuntimeError : ledger.hadRuntimeError ↔ ∃ d ∈ ledger.items.toList, d.origin.isSyntax = false

variable (ledger : Ledger)

@[simp] theorem report_items (d : Diagnostic) :
    (ledger.report d).items.toList = ledger.items.toList ++ [d] := Array.toList_push

@[simp] theorem reportAll_nil : ledger.reportAll [] = ledger := rfl

@[simp] theorem reportAll_cons (d : Diagnostic) (ds : List Diagnostic) :
    ledger.reportAll (d :: ds) = (ledger.report d).reportAll ds := rfl

@[simp] theorem reportAll_items (ds : List Diagnostic) :
    (ledger.reportAll ds).items.toList = ledger.items.toList ++ ds := by
  induction ds generalizing ledger with
  | nil => simp
  | cons d ds ih => simp [ih]

theorem rendered_report (d : Diagnostic) :
    (ledger.report d).rendered = ledger.rendered ++ d.text ++ "\n" := by
  simp [rendered, messages, String.append_assoc]

variable {ledger}

theorem Flagged.report (h : ledger.Flagged) (d : Diagnostic) : (ledger.report d).Flagged := by
  constructor
  · simp only [Ledger.report, Bool.or_eq_true, h.hadError, Array.toList_push, List.mem_append,
      List.mem_singleton, or_and_right, exists_or, exists_eq_left]
  · simp only [Ledger.report, Bool.or_eq_true, h.hadRuntimeError, Array.toList_push, List.mem_append,
      List.mem_singleton, or_and_right, exists_or, exists_eq_left, Bool.not_eq_true']

end Ledger

namespace Session

/-! ## Steps of a session -/

/-- What a step of a session shows. -/
structure Turn where
  source : String
  outcome : Outcome
  /-- The machine after the step, without its trace: names, arrays, functions, input and output. -/
  machine : Machine
  /-- The diagnostics of the step. -/
  reported : List Diagnostic

/-- The step that runs a source. -/
def turn (session : Session) (source : String) : Turn where
  source
  outcome := (session.run source).1
  machine := (session.run source).2.untraced.machine
  reported := (session.run source).2.ledger.items.toList.drop session.ledger.items.size

/-- The steps that run sources one after the other. -/
def turns (session : Session) : List String → List Turn
  | [] => []
  | source :: sources => session.turn source :: turns (session.run source).2 sources

/-- Running a source gets as far as its statements. -/
def Executes (session : Session) (source : String) : Prop :=
  ∃ entries, session.run source =
    (session.logAll entries).interpret (parseSource session.limits source).statements

/-- Nothing is reported of the source of a step. -/
def Turn.isClean (limits : Limits) (turn : Turn) : Bool :=
  (parseSource limits turn.source).diagnostics.isEmpty

/-- The error stream has got the diagnostics, and the flags are those of the diagnostics. -/
structure Recorded (session : Session) : Prop where
  flagged : session.ledger.Flagged
  errors : session.errors = session.ledger.rendered

theorem start_recorded (input : String) (verbosity : Nat) (clock : Float) :
    (start input verbosity clock).Recorded :=
  ⟨⟨by simp [start], by simp [start]⟩, rfl⟩

variable {session session' : Session} {source : String}

theorem Recorded.enter (h : session.Recorded) (d : Diagnostic) : (session.enter d).Recorded :=
  ⟨h.flagged.report d, by rw [Session.enter, h.errors, Ledger.rendered_report]⟩

theorem Recorded.enterAll (h : session.Recorded) (ds : List Diagnostic) :
    (ds.foldl Session.enter session).Recorded := by
  induction ds generalizing session with
  | nil => exact h
  | cons d ds ih => exact ih (h.enter d)

/-- A session with more diagnostics, and with any machine. -/
structure Entered (session : Session) (ds : List Diagnostic) (session' : Session) : Prop where
  ledger : session'.ledger = session.ledger.reportAll ds
  errors : session'.errors = (ds.foldl Session.enter session).errors
  settings : session'.settings = session.settings
  limits : session'.limits = session.limits

theorem Entered.recorded {ds : List Diagnostic} (h : session.Entered ds session')
    (hr : session.Recorded) : session'.Recorded := by
  obtain ⟨hflagged, herrors⟩ := hr.enterAll ds
  rw [foldl_enter] at hflagged herrors
  refine ⟨?_, ?_⟩
  · rw [h.ledger]
    exact hflagged
  · rw [h.ledger, h.errors, foldl_enter]
    exact herrors

/-- What is reported of how statements have ended. -/
def faults : EStateM.Result Stop Machine Unit → List Diagnostic
  | .error (.fault cause token) _ => [cause.diagnostic token]
  | .error .overflow _ => [Fault.nestingTooDeep.diagnostic none]
  | _ => []

theorem settle_entered (session : Session) (result : EStateM.Result Stop Machine Unit) :
    session.Entered (faults result) (session.settle result).2 := by
  cases result with
  | ok => exact ⟨rfl, rfl, rfl, rfl⟩
  | error stop =>
    cases stop with
    | fault => refine ⟨?_, ?_, ?_, ?_⟩ <;> simp [faults, settle, report, Session.enter]
    | overflow => refine ⟨?_, ?_, ?_, ?_⟩ <;> simp [faults, settle, report, Session.enter]
    | endless => exact ⟨rfl, rfl, rfl, rfl⟩
    | broken => exact ⟨rfl, rfl, rfl, rfl⟩

/-- What was traced does not matter to what is reported next. -/
theorem Entered.of_logAll {entries : List Trace.Entry} {ds : List Diagnostic}
    (h : (session.logAll entries).Entered ds session') : session.Entered ds session' := by
  refine ⟨?_, ?_, ?_, ?_⟩
  · rw [h.ledger, logAll_ledger]
  · rw [h.errors, foldl_enter, foldl_enter, logAll_errors]
  · rw [h.settings, logAll_settings]
  · rw [h.limits, logAll_limits]

/-- A source of which nothing is reported runs as its statements do, whatever was traced. -/
theorem run_settled (session : Session) (h : (parseSource session.limits source).diagnostics = []) :
    ∃ entries log, session.run source = (session.logAll entries).settle
      (Eval.runProgram session.settings session.limits.running
        (parseSource session.limits source).statements { session.machine with log }) := by
  obtain ⟨entries, hrun⟩ := session.run_of_clean h
  obtain ⟨log, hlog⟩ :=
    (session.logAll entries).interpret_eq (parseSource session.limits source).statements
  obtain ⟨log', hlogged⟩ := session.logAll_eq entries
  refine ⟨entries, log, ?_⟩
  rw [hrun, hlog, logAll_settings, logAll_limits, hlogged]

/-- A source of which something is reported leaves the machine as it was. -/
theorem run_rejected (session : Session)
    (h : (parseSource session.limits source).diagnostics ≠ []) :
    (session.run source).1 = .finished false ∧
      (session.run source).2.untraced.machine = session.untraced.machine ∧
      session.Entered (parseSource session.limits source).diagnostics (session.run source).2 := by
  obtain ⟨entries, hparse⟩ := session.parse_snd source
  rw [session.run_of_reported h, hparse, logAll_untraced, foldl_enter]
  refine ⟨rfl, rfl, ?_, ?_, ?_, ?_⟩ <;> simp [foldl_enter]

/-- Running a source only adds to the diagnostics. -/
theorem run_entered (session : Session) (source : String) :
    ∃ ds, session.Entered ds (session.run source).2 := by
  by_cases h : (parseSource session.limits source).diagnostics = []
  · obtain ⟨entries, log, hrun⟩ := session.run_settled h
    rw [hrun]
    exact ⟨_, (settle_entered _ _).of_logAll⟩
  · exact ⟨_, (session.run_rejected h).2.2⟩

theorem turn_reported {ds : List Diagnostic}
    (h : (session.run source).2.ledger = session.ledger.reportAll ds) :
    (session.turn source).reported = ds := by
  simp [turn, h]

/-- The diagnostics of a step are those that it adds. -/
theorem turn_entered (session : Session) (source : String) :
    session.Entered (session.turn source).reported (session.run source).2 := by
  obtain ⟨ds, h⟩ := session.run_entered source
  rw [turn_reported h.ledger]
  exact h

theorem turn_rejected (session : Session) (h : (parseSource session.limits source).diagnostics ≠ []) :
    session.turn source = ⟨source, .finished false, session.untraced.machine,
      (parseSource session.limits source).diagnostics⟩ := by
  obtain ⟨hend, hmachine, hentered⟩ := session.run_rejected h
  rw [← turn_reported hentered.ledger, ← hend, ← hmachine]
  rfl

/-- The step of a source of which nothing is reported is told by how its statements end. -/
theorem turn_settled (session : Session) (h : (parseSource session.limits source).diagnostics = []) :
    ∃ entries log, session.turn source =
      let result := Eval.runProgram session.settings session.limits.running
        (parseSource session.limits source).statements { session.machine with log }
      let settled := (session.logAll entries).settle result
      ⟨source, settled.1, settled.2.untraced.machine, faults result⟩ := by
  obtain ⟨entries, log, hrun⟩ := session.run_settled h
  refine ⟨entries, log, ?_⟩
  dsimp only at hrun ⊢
  generalize Eval.runProgram _ _ _ _ = result at hrun ⊢
  have hentered : session.Entered (faults result) (session.run source).2 := by
    rw [hrun]
    exact (settle_entered _ _).of_logAll
  rw [← turn_reported hentered.ledger, ← hrun]
  rfl

/-! ## Other diagnostics -/

/-- The same session but for what was reported and traced. -/
structure Alike (s s' : Session) : Prop where
  machine : s.untraced.machine = s'.untraced.machine
  settings : s.settings = s'.settings
  limits : s.limits = s'.limits

theorem Alike.trans {s₁ s₂ s₃ : Session} (h : s₁.Alike s₂) (h' : s₂.Alike s₃) : s₁.Alike s₃ :=
  ⟨h.machine.trans h'.machine, h.settings.trans h'.settings, h.limits.trans h'.limits⟩

end Session

theorem Stop.Matches.eq {stop stop' : Stop} (h : Stop.Matches Eq Eq stop stop') : stop = stop' := by
  cases h with
  | fault hcause htoken =>
    obtain rfl := hcause.eq fun h => congrArg Token.text h
    cases htoken with
    | none => rfl
    | some ht => rw [ht.elim id id]
  | overflow => rfl
  | endless => rfl
  | broken hdefect => rw [hdefect.eq fun h => congrArg Token.text h]

theorem Machine.Matches.untraced_eq {m m' : Machine} (h : m.Matches Eq Eq m') :
    { m with log := #[] } = { m' with log := #[] } := by
  rw [h.store.eq, h.input, h.output, h.clock]

/-- Statements run the same on machines that differ in the trace only. -/
theorem Eval.runProgram_untraced (settings : Settings) (room : Nat) (statements : List Node)
    {m m' : Machine} (h : { m with log := #[] } = { m' with log := #[] }) :
    Agrees Eq Eq Eq (runProgram settings room statements m)
      (runProgram settings room statements m') := by
  have hneutral : Neutral Eq Eq := ⟨fun h => by rw [h], fun h => by rw [h]⟩
  have hsame : MatchesAll Eq Eq statements statements :=
    MatchesAll.same (fun _ => rfl) (fun _ => rfl) statements
  have hm : Machine.Matches Eq Eq { m with log := #[] } { m' with log := #[] } := by
    rw [h]
    exact .same (fun _ => rfl) (fun _ => rfl) _
  exact (Related.runProgram hneutral settings room hsame).agrees (hm.withLog m.log m'.log)

namespace Session

theorem settle_agrees (s s' : Session) {result result' : EStateM.Result Stop Machine Unit}
    (h : Eval.Agrees Eq Eq Eq result result') :
    (s.settle result).1 = (s'.settle result').1 ∧
      (s.settle result).2.untraced.machine = (s'.settle result').2.untraced.machine ∧
      faults result = faults result' := by
  cases h with
  | ok _ hm => exact ⟨rfl, hm.untraced_eq, rfl⟩
  | @error stop stop' m m' hstop hm =>
    obtain rfl := hstop.eq
    have heq := hm.untraced_eq
    cases stop with
    | fault => exact ⟨rfl, by simpa [settle, report, Session.enter, untraced] using heq, rfl⟩
    | overflow => exact ⟨rfl, by simpa [settle, report, Session.enter, untraced] using heq, rfl⟩
    | endless => exact ⟨rfl, heq, rfl⟩
    | broken => exact ⟨rfl, heq, rfl⟩

variable {s s' : Session}

/-- A step does not depend on what was reported before. -/
theorem Alike.turn (h : s.Alike s') (source : String) :
    s.turn source = s'.turn source ∧ (s.run source).2.Alike (s'.run source).2 := by
  have hsettings := (s.turn_entered source).settings
  have hsettings' := (s'.turn_entered source).settings
  have hlimits := (s.turn_entered source).limits
  have hlimits' := (s'.turn_entered source).limits
  suffices hturn : s.turn source = s'.turn source by
    refine ⟨hturn, congrArg Turn.machine hturn, ?_, ?_⟩
    · rw [hsettings, hsettings', h.settings]
    · rw [hlimits, hlimits', h.limits]
  by_cases hclean : (parseSource s.limits source).diagnostics = []
  · have hclean' : (parseSource s'.limits source).diagnostics = [] := by rwa [← h.limits]
    obtain ⟨entries, log, hturn⟩ := s.turn_settled hclean
    obtain ⟨entries', log', hturn'⟩ := s'.turn_settled hclean'
    have hmachine : { s.machine with log := #[] } = { s'.machine with log := #[] } := h.machine
    have hagrees : Eval.Agrees Eq Eq Eq
        (Eval.runProgram s.settings s.limits.running (parseSource s.limits source).statements
          { s.machine with log })
        (Eval.runProgram s'.settings s'.limits.running (parseSource s'.limits source).statements
          { s'.machine with log := log' }) := by
      rw [← h.settings, ← h.limits]
      exact Eval.runProgram_untraced _ _ _ hmachine
    obtain ⟨hend, hleft, hfaults⟩ :=
      settle_agrees (s.logAll entries) (s'.logAll entries') hagrees
    rw [hturn, hturn']
    dsimp only
    rw [hend, hleft, hfaults]
  · have hclean' : (parseSource s'.limits source).diagnostics ≠ [] := by rwa [← h.limits]
    rw [s.turn_rejected hclean, s'.turn_rejected hclean', h.machine, h.limits]

theorem Alike.turns (h : s.Alike s') (sources : List String) :
    s.turns sources = s'.turns sources ∧ (s.after sources).Alike (s'.after sources) := by
  induction sources generalizing s s' with
  | nil => exact ⟨rfl, h⟩
  | cons source sources ih =>
    obtain ⟨hturn, hleft⟩ := h.turn source
    obtain ⟨hturns, hafter⟩ := ih hleft
    exact ⟨by rw [Session.turns, Session.turns, hturn, hturns], hafter⟩

/-- A source that is not run leaves the session alike. -/
theorem Alike.rejected (h : (parseSource s.limits source).diagnostics ≠ []) :
    s.Alike (s.run source).2 := by
  obtain ⟨-, hmachine, hentered⟩ := s.run_rejected h
  exact ⟨hmachine.symm, hentered.settings.symm, hentered.limits.symm⟩

/-- If steps that run nothing are deleted, the others are as they were, and they leave the same. -/
theorem turns_kept {kept : List Turn} {sources : List String} (hsub : kept.Sublist (s.turns sources))
    (hclean : kept.filter (·.isClean s.limits) = (s.turns sources).filter (·.isClean s.limits)) :
    s.turns (kept.map (·.source)) = kept ∧
      (s.after (kept.map (·.source))).Alike (s.after sources) := by
  induction sources generalizing s kept with
  | nil =>
    obtain rfl := List.sublist_nil.mp hsub
    exact ⟨rfl, rfl, rfl, rfl⟩
  | cons source sources ih =>
    have hlimits := (s.turn_entered source).limits
    cases hsub with
    | cons _ hsub =>
      -- a step with statements would be missing among those that are kept
      have hrejected : (s.turn source).isClean s.limits = false := by
        by_contra hne
        have hlength := (hsub.filter (·.isClean s.limits)).length_le
        rw [hclean, turns, List.filter_cons_of_pos (by simpa using hne), List.length_cons] at hlength
        omega
      rw [turns, List.filter_cons_of_neg (by simp [hrejected]), ← hlimits] at hclean
      obtain ⟨hkept, hafter⟩ := ih hsub hclean
      have halike : s.Alike (s.run source).2 :=
        .rejected (by simpa [Turn.isClean, turn] using hrejected)
      obtain ⟨hturns, hleft⟩ := halike.turns (kept.map (·.source))
      exact ⟨hturns.trans hkept, hleft.trans hafter⟩
    | @cons_cons kept _ _ hsub =>
      have hclean' : kept.filter (·.isClean s.limits) =
          ((s.run source).2.turns sources).filter (·.isClean s.limits) := by
        simp only [turns, List.filter_cons] at hclean
        split at hclean
        · exact (List.cons.inj hclean).2
        · exact hclean
      rw [← hlimits] at hclean'
      obtain ⟨hkept, hafter⟩ := ih hsub hclean'
      exact ⟨congrArg (s.turn source :: ·) hkept, hafter⟩

/-! ## What is recorded -/

theorem faults_isSyntax (result : EStateM.Result Stop Machine Unit) :
    ∀ d ∈ faults result, d.origin.isSyntax = false := by
  intro d hd
  unfold faults at hd
  split at hd
  · rw [List.mem_singleton.mp hd]
    rfl
  · rw [List.mem_singleton.mp hd]
    rfl
  · cases hd

/-- Statements are run exactly if nothing is reported of the source. -/
theorem executes_iff (session : Session) (source : String) :
    session.Executes source ↔ (parseSource session.limits source).diagnostics = [] := by
  constructor
  · intro h
    obtain ⟨entries, hrun⟩ := h
    by_contra hne
    obtain ⟨log, hlog⟩ :=
      (session.logAll entries).interpret_eq (parseSource session.limits source).statements
    rw [hlog] at hrun
    generalize Eval.runProgram _ _ _ _ = result at hrun
    have hfaults : (session.turn source).reported = faults result := by
      refine turn_reported ?_
      rw [hrun]
      exact (settle_entered _ result).of_logAll.ledger
    rw [session.turn_rejected hne] at hfaults
    obtain ⟨d, hd⟩ := List.exists_mem_of_ne_nil _ hne
    have hruntime := faults_isSyntax result d (hfaults ▸ hd)
    rw [parseSource_isSyntax session.limits source d hd] at hruntime
    cases hruntime
  · exact session.run_of_clean

/-- A source that is run reports one error if it ends with false, and else nothing. -/
theorem turn_faulted (hs : s.Sound) (h : (parseSource s.limits source).diagnostics = []) :
    ((s.turn source).outcome = .finished false ∧
      ∃ d, (s.turn source).reported = [d] ∧ d.origin.isSyntax = false) ∨
    ((s.turn source).outcome ≠ .finished false ∧ (s.turn source).reported = []) := by
  rcases run_cases hs source with ⟨-, ends⟩ | ⟨hne, -⟩
  · have hreported (ds : List Diagnostic) :
        (s.run source).2.ledger = s.ledger.reportAll ds → (s.turn source).reported = ds :=
      turn_reported
    have hend : (s.turn source).outcome = (s.run source).1 := rfl
    rw [hend]
    generalize s.run source = result at ends hreported
    cases ends with
    | done _ hl => exact .inr ⟨nofun, hreported [] hl⟩
    | stopped cause token _ hl =>
      exact .inl ⟨rfl, cause.diagnostic token, hreported [cause.diagnostic token] hl, rfl⟩
    | endless _ hl => exact .inr ⟨nofun, hreported [] hl⟩
  · exact (hne h).elim

theorem turns_faulted (hs : s.Sound) (sources : List String) : ∀ turn ∈ s.turns sources,
    (∃ d ∈ turn.reported, d.origin.isSyntax = false) ↔
      turn.isClean s.limits ∧ turn.outcome = .finished false := by
  induction sources generalizing s with
  | nil => nofun
  | cons source sources ih =>
    intro turn hturn
    rcases List.mem_cons.mp hturn with rfl | hturn
    · have hclean : (s.turn source).isClean s.limits ↔
          (parseSource s.limits source).diagnostics = [] := List.isEmpty_iff
      by_cases h : (parseSource s.limits source).diagnostics = []
      · rcases turn_faulted hs h with ⟨hend, d, hd, hruntime⟩ | ⟨hend, hd⟩
        · simp [hclean.mpr h, hend, hd, hruntime]
        · simp [hend, hd]
      · refine iff_of_false ?_ fun hc => h (hclean.mp hc.1)
        rw [s.turn_rejected h]
        intro hd
        obtain ⟨d, hd, hruntime⟩ := hd
        rw [parseSource_isSyntax s.limits source d hd] at hruntime
        cases hruntime
    · have hlimits := (s.turn_entered source).limits
      rw [← hlimits]
      exact ih (run_sound hs source) turn hturn

/-- The diagnostics of a session are those of its steps, in order. -/
theorem after_items (s : Session) (sources : List String) :
    (s.after sources).ledger.items.toList =
      s.ledger.items.toList ++ (s.turns sources).flatMap (·.reported) := by
  induction sources generalizing s with
  | nil => simp [after, turns]
  | cons source sources ih =>
    have hstep := (s.turn_entered source).ledger
    change ((s.run source).2.after sources).ledger.items.toList = _
    rw [ih, hstep, Ledger.reportAll_items, List.append_assoc, turns, List.flatMap_cons]

theorem after_recorded (h : s.Recorded) (sources : List String) : (s.after sources).Recorded := by
  induction sources generalizing s with
  | nil => exact h
  | cons source sources ih => exact ih ((s.turn_entered source).recorded h)

theorem after_limits (s : Session) (sources : List String) :
    (s.after sources).limits = s.limits := by
  induction sources generalizing s with
  | nil => rfl
  | cons source sources ih => exact (ih _).trans (s.turn_entered source).limits

/-- What a session records of the sources that are run on it. Whatever was reported before, the
statements of a source are run exactly if nothing is reported of it. Otherwise it ends with false and
leaves the machine as it was. A source that is run and ends with false adds one error of the running
program. The flags tell whether any step had diagnostics of each sort, and the error stream has got
all diagnostics in order. Steps that run nothing can be deleted: the others end the same, print the
same and report the same, and in the end the same names, arrays and functions are there. -/
theorem turns_recorded (input : String) (verbosity : Nat) (clock : Float) (settings : Settings)
    (limits : Limits) (sources : List String) :
    let fresh : Session := { start input verbosity clock with settings, limits }
    let session := fresh.after sources
    let turns := fresh.turns sources
    (∀ source,
      (session.Executes source ↔ (parseSource limits source).diagnostics = []) ∧
      ((parseSource limits source).diagnostics ≠ [] → (session.run source).1 = .finished false ∧
        (session.run source).2.untraced.machine = session.untraced.machine) ∧
      (session.Executes source → (session.run source).1 = .finished false →
        ∃ d, d.origin.isSyntax = false ∧
          (session.run source).2.ledger.items.toList = session.ledger.items.toList ++ [d])) ∧
    (session.ledger.hadError ↔ ∃ turn ∈ turns, ∃ d ∈ turn.reported, d.origin.isSyntax) ∧
    (session.ledger.hadRuntimeError ↔
      ∃ turn ∈ turns, turn.isClean limits ∧ turn.outcome = .finished false) ∧
    session.ledger.items.toList = turns.flatMap (·.reported) ∧
    session.errors = session.ledger.rendered ∧
    ∀ kept : List Turn, kept.Sublist turns →
      kept.filter (·.isClean limits) = turns.filter (·.isClean limits) →
      fresh.turns (kept.map (·.source)) = kept ∧
        (fresh.after (kept.map (·.source))).untraced.machine = session.untraced.machine := by
  intro fresh session turns
  have hlimits : session.limits = limits := fresh.after_limits sources
  have started : fresh.Sound := start_sound input verbosity clock
  have hsound : session.Sound := after_sound started sources
  have hitems : session.ledger.items.toList = turns.flatMap (·.reported) :=
    fresh.after_items sources
  have hstart := start_recorded input verbosity clock
  obtain ⟨hflagged, herrors⟩ := after_recorded (s := fresh) ⟨hstart.flagged, hstart.errors⟩ sources
  refine ⟨fun source => ?_, ?_, ?_, hitems, herrors, fun kept hsub hclean => ?_⟩
  · rw [← hlimits]
    refine ⟨session.executes_iff source, fun hne => ?_, fun hexec hend => ?_⟩
    · obtain ⟨hend, hmachine, -⟩ := session.run_rejected hne
      exact ⟨hend, hmachine⟩
    · rw [executes_iff] at hexec
      rcases turn_faulted hsound hexec with ⟨-, d, hd, hruntime⟩ | ⟨hne, -⟩
      · refine ⟨d, hruntime, ?_⟩
        rw [(session.turn_entered source).ledger, hd, Ledger.reportAll_items]
      · exact (hne hend).elim
  · rw [hflagged.hadError, hitems]
    simp only [List.mem_flatMap]
    grind
  · rw [hflagged.hadRuntimeError, hitems]
    have hturns := turns_faulted started sources
    simp only [List.mem_flatMap]
    grind
  · obtain ⟨hkept, hafter⟩ := turns_kept hsub hclean
    exact ⟨hkept, hafter.machine⟩

def mixedSources : List String :=
  ["var a = [1];", "push(a, ;", "push(a, 2); print len(a); print b;", "print \"late"]

/-- Two sources with errors in them and two without, of which the second one fails when it is run. -/
theorem mixedSources_recorded :
    let fresh := start "" 0 1
    let kept := (fresh.turns mixedSources).filter (·.isClean .standard)
    kept.map (·.source) = ["var a = [1];", "push(a, 2); print len(a); print b;"] ∧
      kept.map (·.outcome) = [.finished true, .finished false] ∧
      fresh.turns (kept.map (·.source)) = kept ∧
      (fresh.after (kept.map (·.source))).untraced.machine =
        (fresh.after mixedSources).untraced.machine := by
  intro fresh kept
  have hsources : kept.map (·.source) = ["var a = [1];", "push(a, 2); print len(a); print b;"] := by
    decide +kernel
  have hends : kept.map (·.outcome) = [.finished true, .finished false] := by decide +kernel
  have hsub : kept.Sublist (fresh.turns mixedSources) := List.filter_sublist
  have hclean : kept.filter (·.isClean .standard) = kept := by
    unfold kept
    simp only [List.filter_filter, Bool.and_self]
  obtain ⟨-, -, -, -, -, hkept⟩ :=
    turns_recorded "" 0 1 ⟨standardRounds, some 0⟩ .standard mixedSources
  exact ⟨hsources, hends, hkept kept hsub hclean⟩

end Session

end GameScript
