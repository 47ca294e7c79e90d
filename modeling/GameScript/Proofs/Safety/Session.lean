import GameScript.Proofs.Blame.Natives
import GameScript.Proofs.Session.Basic

/-! # Sources end with an answer

However many sources are run on one session, each run ends with true or with false and a report, or
goes round a loop as often as is allowed. The functions that earlier runs leave behind are well formed, so
later runs can call them. -/

namespace GameScript

theorem Store.define_closures (store : Store) (scope : Nat) (name : Name) (value : Value) :
    (store.define scope name value).closures = store.closures := rfl

/-- A new store has no functions of programs. -/
theorem Store.initial_closures : Store.initial.closures = #[] := by
  unfold Store.initial Native.all
  simp only [List.foldl_cons, List.foldl_nil, Store.define_closures]
  rfl

namespace Session

/-- The session that running sources one after the other leaves. -/
def after (session : Session) (sources : List String) : Session :=
  sources.foldl (fun session source => (session.run source).2) session

/-- All functions of a session came from sources. -/
def Sound (session : Session) : Prop := session.machine.store.Sound Token.Written

theorem start_sound (input : String) (verbosity : Nat) (clock : Float) :
    (start input verbosity clock).Sound := by
  intro closure hc
  rw [show (start input verbosity clock).machine.store.closures = #[] from Store.initial_closures] at hc
  exact absurd hc (by simp)

/-- As a source runs, a loop inside its statements goes round as often as the settings allow. The log
may have got more messages before the statements start. -/
def Spins (session : Session) (source : String) : Prop :=
  ∃ log, Eval.Spins session.settings
    (.program session.limits.running (parseSource session.limits source).statements)
    { session.machine with log } (session.run source).2.machine

/-- What running statements does to a session. -/
inductive Ends (session : Session) : Outcome × Session → Prop where
  /-- They ran to their end. -/
  | done {session' : Session} :
      session'.Sound → session'.ledger = session.ledger → Ends session (.finished true, session')
  /-- They were stopped by an error, which has been reported. -/
  | stopped {session' : Session} (cause : Fault) (token : Option Token) :
      session'.Sound → session'.ledger = session.ledger.report (cause.diagnostic token) →
      Ends session (.finished false, session')
  /-- A loop has gone round as often as is allowed. -/
  | endless {session' : Session} :
      session'.Sound → session'.ledger = session.ledger → Ends session (.endless, session')

variable {session : Session}

/-- Statements of programs end as they should, in every session whose functions came from sources. -/
theorem interpret_ends (h : session.Sound) {statements : List Node}
    (hs : ∀ node ∈ statements, IsStatement Token.Written node) :
    Ends session (session.interpret statements) := by
  obtain ⟨log, hlog⟩ := session.interpret_eq statements
  have hlogged : Store.Sound Token.Written { session.machine with log }.store := h
  have safe := Eval.Safe.runProgram (fun _ h => h) session.settings session.limits.running hs
  rw [hlog]
  cases hp : Eval.runProgram session.settings session.limits.running statements
    { session.machine with log } with
  | ok _ machine => exact .done (safe.ok hlogged hp).1 rfl
  | error stop machine =>
    obtain ⟨hm, ha⟩ := safe.stop hlogged hp
    cases stop with
    | fault cause token =>
      refine .stopped cause token ?_ ?_
      · simpa [Sound, report, enter] using hm
      · simp [report, enter]
    | overflow =>
      refine .stopped .nestingTooDeep none ?_ ?_
      · simpa [Sound, report, enter] using hm
      · simp [report, enter]
    | endless => exact .endless hm rfl
    | broken => exact ha.elim

/-- The diagnostics that running statements reports. -/
theorem Ends.reported {result : Outcome × Session} (h : Ends session result) :
    result.1 = .endless ∨ ∃ ok, result.1 = .finished ok ∧ ∃ reported,
      result.2.ledger = session.ledger.reportAll reported ∧ (ok = true ↔ reported = []) ∧
      ∀ d ∈ reported, ∃ cause token, d = Fault.diagnostic cause token := by
  cases h with
  | done _ hl => exact .inr ⟨true, rfl, [], hl, by simp, nofun⟩
  | stopped cause token _ hl =>
    refine .inr ⟨false, rfl, [cause.diagnostic token], hl, by simp, fun d hd => ?_⟩
    exact ⟨cause, token, List.mem_singleton.mp hd⟩
  | endless => exact .inl rfl

/-- Only the diagnostics of a session matter to how statements end. -/
theorem Ends.of_ledger {session₁ : Session} {result : Outcome × Session} (h : Ends session₁ result)
    (hl : session₁.ledger = session.ledger) : Ends session result := by
  cases h with
  | done hs h => exact .done hs (h.trans hl)
  | stopped cause token hs h => exact .stopped cause token hs (by rw [h, hl])
  | endless hs h => exact .endless hs (h.trans hl)

theorem Ends.sound {result : Outcome × Session} (h : Ends session result) : result.2.Sound := by
  cases h <;> assumption

theorem Ends.not_broken {result : Outcome × Session} (h : Ends session result) (defect : Defect) :
    result.1 ≠ .broken defect := by
  cases h <;> nofun

theorem parse_sound (h : session.Sound) (source : String) : (session.parse source).2.Sound := by
  obtain ⟨entries, hp⟩ := session.parse_snd source
  rw [hp, foldl_enter]
  simpa [Sound] using h

/-- A source runs, from a session with the same diagnostics and functions, or its errors are
reported. -/
theorem run_cases (h : session.Sound) (source : String) :
    ((parseSource session.limits source).diagnostics = [] ∧ Ends session (session.run source)) ∨
    ((parseSource session.limits source).diagnostics ≠ [] ∧
      (session.run source).1 = .finished false ∧ (session.run source).2.Sound ∧
      (session.run source).2.ledger =
        session.ledger.reportAll (parseSource session.limits source).diagnostics) := by
  by_cases hd : (parseSource session.limits source).diagnostics = []
  · refine .inl ⟨hd, ?_⟩
    obtain ⟨entries, hrun⟩ := session.run_of_clean hd
    have hlog : (session.logAll entries).Sound := by simpa [Sound] using h
    have ends := interpret_ends hlog (parseSource_isStatement session.limits source)
    rw [hrun]
    exact ends.of_ledger (by simp)
  · refine .inr ⟨hd, ?_⟩
    rw [session.run_of_reported hd]
    refine ⟨rfl, parse_sound h source, ?_⟩
    obtain ⟨entries, hp⟩ := session.parse_snd source
    rw [hp, foldl_enter]
    simp

theorem run_sound (h : session.Sound) (source : String) : (session.run source).2.Sound := by
  rcases run_cases h source with ⟨-, ends⟩ | ⟨-, -, hs, -⟩
  · exact ends.sound
  · exact hs

/-- Running sources keeps all functions well formed. -/
theorem after_sound (h : session.Sound) (sources : List String) : (session.after sources).Sound := by
  induction sources generalizing session with
  | nil => exact h
  | cons source sources ih => exact ih (run_sound h source)

/-- A source that runs without end has a loop that goes round as often as is allowed. -/
theorem run_endless {source : String} (h : (session.run source).1 = .endless) :
    session.Spins source := by
  have hd : (parseSource session.limits source).diagnostics = [] := by
    by_contra hd
    rw [session.run_of_reported hd] at h
    cases h
  obtain ⟨entries, hrun⟩ := session.run_of_clean hd
  obtain ⟨log, hlog⟩ :=
    (session.logAll entries).interpret_eq (parseSource session.limits source).statements
  obtain ⟨earlier, hearlier⟩ := session.logAll_eq entries
  refine ⟨log, ?_⟩
  rw [hrun, hlog] at h ⊢
  simpa [hearlier] using Eval.runProgram_endless.mp (settle_endless h)

/-- Every source that is run, after any others, ends with an answer, or a loop inside its statements
goes round as often as is allowed. The answer is true exactly if nothing is reported, and of a source that parses only errors of
the running program are reported. The statements of no source, even of one with errors, meet a
defect. -/
theorem run_answers (input : String) (verbosity : Nat) (clock : Float) (settings : Settings)
    (limits : Limits) (earlier : List String) (source : String) :
    let session := after { start input verbosity clock with settings, limits } earlier
    ((session.run source).1 = .endless ∧ session.Spins source ∨
      ∃ ok, (session.run source).1 = .finished ok ∧ ∃ reported,
        (session.run source).2.ledger = session.ledger.reportAll reported ∧
        (ok = true ↔ reported = []) ∧
        ((parseSource session.limits source).diagnostics = [] →
          ∀ d ∈ reported, ∃ cause token, d = Fault.diagnostic cause token)) ∧
    ∀ text parsing defect,
      (session.interpret (parseSource parsing text).statements).1 ≠ .broken defect := by
  intro session
  have started : Sound { start input verbosity clock with settings, limits } :=
    start_sound input verbosity clock
  have sound : session.Sound := after_sound started earlier
  constructor
  · rcases run_cases sound source with ⟨-, ends⟩ | ⟨hd, hrun, -, hl⟩
    · rcases ends.reported with hrun | ⟨ok, hrun, reported, hl, hok, hcause⟩
      · exact .inl ⟨hrun, run_endless hrun⟩
      · exact .inr ⟨ok, hrun, reported, hl, hok, fun _ => hcause⟩
    · exact .inr ⟨false, hrun, _, hl, by simp [hd], fun h => (hd h).elim⟩
  · intro text parsing defect
    exact (interpret_ends sound (parseSource_isStatement parsing text)).not_broken defect

end Session

end GameScript
