import GameScript.Proofs.Matching.Lines
import GameScript.Proofs.Session.Matching

/-! # Two sources, or one source of both

A source that runs to its end and another one after it do what the one source does that holds both
with a line end between. Only lines tell the two apart, and they do so by as many lines as the first
source has. -/

namespace GameScript

variable {L : Json → Json → Prop}

/-- An error that is reported at tokens on other lines. -/
theorem Fault.diagnostic_relined (hL : ∀ line, L line line) (cause : Fault)
    {token token' : Option Token}
    (h : Option.Rel (fun t t' => Token.Relined L t t' ∨ Token.Relined L t t') token token') :
    Diagnostic.Relined L (cause.diagnostic token) (cause.diagnostic token') := by
  cases h with
  | none => exact ⟨_, hL _, rfl⟩
  | some ht =>
    obtain ⟨line, hline, rfl⟩ := ht.elim id id
    exact ⟨line, hline, rfl⟩

/-- Diagnostics on other lines are reported alike. -/
theorem Diagnostic.Relined.reported (hL : ∀ line, L line line) :
    Reported (Token.Relined L) (Token.Relined L) (Diagnostic.Relined L) where
  isSyntax := by
    intro d d' h
    obtain ⟨line, -, rfl⟩ := h
    rfl
  fault := by
    intro cause cause' token token' hcause htoken
    obtain rfl := hcause.eq Token.Relined.text
    exact cause.diagnostic_relined hL htoken

/-- The same diagnostics, in the same order, on other lines. -/
structure Ledger.Relined (L : Json → Json → Prop) (l l' : Ledger) : Prop where
  items : List.Forall₂ (Diagnostic.Relined L) l.items.toList l'.items.toList
  hadError : l.hadError = l'.hadError
  hadRuntimeError : l.hadRuntimeError = l'.hadRuntimeError

theorem Ledger.Relined.eq {l l' : Ledger} (h : l.Relined Eq l') : l = l' := by
  have hitems : l.items = l'.items := by
    have hall := h.items
    rwa [Diagnostic.relined_eq, List.forall₂_eq_eq_eq, Array.toList_inj] at hall
  cases l
  cases l'
  simp only [Ledger.mk.injEq]
  exact ⟨hitems, h.hadError, h.hadRuntimeError⟩

namespace Session

/-! ## Sessions on other lines -/

/-- The same session on other lines, and with any trace. The error streams have got the same
diagnostics since they were the same. -/
structure Relined (L : Json → Json → Prop) (s s' : Session) : Prop where
  machine : s.machine.Matches (Token.Relined L) (Token.Relined L) s'.machine
  ledger : s.ledger.Relined L s'.ledger
  errors : ∃ before ds ds', List.Forall₂ (Diagnostic.Relined L) ds ds' ∧
    s.errors = ds.foldl (fun errors d => errors ++ d.text ++ "\n") before ∧
    s'.errors = ds'.foldl (fun errors d => errors ++ d.text ++ "\n") before
  settings : s.settings = s'.settings
  limits : s.limits = s'.limits

/-- The session without its trace. -/
def untraced (session : Session) : Session :=
  { session with machine := { session.machine with log := #[] } }

variable {s s' : Session}

theorem relined_iff : s.Relined L s' ↔
    s.Matches (Token.Relined L) (Token.Relined L) (Diagnostic.Relined L) s' := by
  constructor
  · intro h
    obtain ⟨hm, ⟨hitems, hflag, hflag'⟩, herrors, hsettings, hlimits⟩ := h
    exact ⟨hm, ⟨hitems, hflag, hflag'⟩, herrors, hsettings, hlimits⟩
  · intro h
    obtain ⟨hm, ⟨hitems, hflag, hflag'⟩, herrors, hsettings, hlimits⟩ := h
    exact ⟨hm, ⟨hitems, hflag, hflag'⟩, herrors, hsettings, hlimits⟩

theorem Relined.same (hL : ∀ line, L line line) (s : Session) : s.Relined L s :=
  relined_iff.mpr (.same (.same hL) (.same hL) (fun d => ⟨d.line, hL _, rfl⟩) s)

theorem logAll_untraced (session : Session) (entries : List Trace.Entry) :
    (session.logAll entries).untraced = session.untraced := by
  obtain ⟨log, hlog⟩ := session.logAll_eq entries
  rw [hlog]
  rfl

theorem relined_untraced : s.untraced.Relined L s'.untraced ↔ s.Relined L s' := by
  constructor
  · intro h
    obtain ⟨hm, hledger, herrors, hsettings, hlimits⟩ := h
    exact ⟨⟨hm.store, hm.input, hm.output, hm.clock⟩, hledger, herrors, hsettings, hlimits⟩
  · intro h
    obtain ⟨hm, hledger, herrors, hsettings, hlimits⟩ := h
    exact ⟨hm.withLog #[] #[], hledger, herrors, hsettings, hlimits⟩

/-- What was traced does not matter. -/
theorem Relined.congr {t t' : Session} (h : s.Relined L s') (ht : s.untraced = t.untraced)
    (ht' : s'.untraced = t'.untraced) : t.Relined L t' := by
  rw [← relined_untraced, ← ht, ← ht', relined_untraced]
  exact h

theorem Relined.logAll (h : s.Relined L s') (entries entries' : List Trace.Entry) :
    (s.logAll entries).Relined L (s'.logAll entries') :=
  h.congr (s.logAll_untraced entries).symm (s'.logAll_untraced entries').symm

theorem Relined.withMachine (h : s.Relined L s') {m m' : Machine}
    (hm : m.Matches (Token.Relined L) (Token.Relined L) m') :
    Relined L { s with machine := m } { s' with machine := m' } :=
  ⟨hm, h.ledger, h.errors, h.settings, h.limits⟩

/-- On the same lines, sessions differ in the trace only. -/
theorem Relined.untraced_eq (h : s.Relined Eq s') : s.untraced = s'.untraced := by
  obtain ⟨before, ds, ds', hds, he, he'⟩ := h.errors
  rw [Diagnostic.relined_eq, List.forall₂_eq_eq_eq] at hds
  have hm := h.machine
  rw [Token.relined_eq] at hm
  obtain ⟨hstore, hinput, houtput, hclock⟩ := hm
  have hledger := h.ledger.eq
  have herrors : s.errors = s'.errors := by rw [he, he', hds]
  unfold untraced
  dsimp only
  rw [hstore.eq, hinput, houtput, hclock, hledger, herrors, h.settings, h.limits]

/-! ## Running statements -/

/-- Statements that end the same leave sessions that are the same. -/
theorem Relined.settle (hL : ∀ line, L line line) (h : s.Relined L s')
    {result result' : EStateM.Result Stop Machine Unit}
    (hr : Eval.Agrees (Token.Relined L) (Token.Relined L) Eq result result') :
    (s.settle result).1 = (s'.settle result').1 ∧
      (s.settle result).2.Relined L (s'.settle result').2 := by
  obtain ⟨hend, hmatch⟩ := (relined_iff.mp h).settle (Diagnostic.Relined.reported hL) hr
  exact ⟨hend.eq Token.Relined.text, relined_iff.mpr hmatch⟩

theorem Relined.runProgram (h : s.Relined L s') {statements statements' : List Node}
    (hs : RelinedAll L statements statements') {m m' : Machine}
    (hm : m.Matches (Token.Relined L) (Token.Relined L) m') :
    Eval.Agrees (Token.Relined L) (Token.Relined L) Eq
      (Eval.runProgram s.settings s.limits.running statements m)
      (Eval.runProgram s'.settings s'.limits.running statements' m') :=
  (relined_iff.mp h).runProgram Token.Relined.neutral hs hm

/-- Statements on other lines do the same to sessions on other lines. -/
theorem Relined.interpret (hL : ∀ line, L line line) (h : s.Relined L s')
    {statements statements' : List Node} (hs : RelinedAll L statements statements') :
    (s.interpret statements).1 = (s'.interpret statements').1 ∧
      (s.interpret statements).2.Relined L (s'.interpret statements').2 := by
  obtain ⟨hend, hmatch⟩ :=
    (relined_iff.mp h).interpret Token.Relined.neutral (Diagnostic.Relined.reported hL) hs
  exact ⟨hend.eq Token.Relined.text, relined_iff.mpr hmatch⟩

/-! ## Statements after others -/

theorem runProgram_append {settings : Settings} {room : Nat} {statements : List Node}
    {m m' : Machine} (h : Eval.runProgram settings room statements m = .ok () m') (more : List Node) :
    Eval.runProgram settings room (statements ++ more) m = Eval.runProgram settings room more m' := by
  induction statements generalizing m with
  | nil =>
    obtain ⟨-, rfl⟩ := pure_ok h
    rfl
  | cons node rest ih =>
    obtain ⟨completion, m₁, h₁, h₂⟩ := bind_ok h
    rw [List.cons_append, Eval.runProgram, bind_eq_of_ok h₁]
    cases completion with
    | normal => exact ih h₂
    | returned value keyword => cases h₂

/-- Statements that run to their end and others after them, or all of them at once. -/
theorem Relined.interpret_append (h : s.Relined Eq s') {statements : List Node}
    (hrun : (s.interpret statements).1 = .finished true) (more : List Node) :
    ((s.interpret statements).2.interpret more).1 = (s'.interpret (statements ++ more)).1 ∧
      ((s.interpret statements).2.interpret more).2.Relined Eq
        (s'.interpret (statements ++ more)).2 := by
  have refl : ∀ nodes : List Node, RelinedAll Eq nodes nodes :=
    MatchesAll.same (Token.Relined.same fun _ => rfl) (Token.Relined.same fun _ => rfl)
  obtain ⟨log, hlog⟩ := s.interpret_eq statements
  obtain ⟨log', hlog'⟩ := s'.interpret_eq (statements ++ more)
  rw [hlog] at hrun
  obtain ⟨m₁, h₁⟩ := settle_finished hrun
  -- the first statements end the same whatever was traced before
  have first := h.runProgram (refl statements) (h.machine.withLog log log')
  rw [h₁] at first
  generalize hfirst : Eval.runProgram s'.settings s'.limits.running statements
    { s'.machine with log := log' } = result at first
  cases first with
  | @ok _ _ _ m₁' _ hm =>
    have reached : (s.interpret statements).2 = { s with machine := m₁ } := by
      rw [hlog, h₁]
      rfl
    obtain ⟨log₂, hlog₂⟩ := Session.interpret_eq { s with machine := m₁ } more
    have second := h.runProgram (refl more) (hm.withLog log₂ m₁'.log)
    rw [reached, hlog₂, hlog', runProgram_append hfirst more]
    exact (h.withMachine hm).settle (fun _ => rfl) second

/-! ## Sources after others -/

/-- A source that runs to its end and another one after it end as the one source of both does. On
both ways the session has then printed and read the same and holds the same names, arrays, functions
and diagnostics, where lines may be so many further down as the first source has. All of it is the
same to the line once the statements of the second source are put on their lines in the one. -/
theorem run_append (session : Session) (first second : String)
    (hfirst : (parseSource session.limits first).diagnostics = [])
    (hsecond : (parseSource session.limits second).diagnostics = [])
    (hrun : (session.run first).1 = .finished true) :
    let k : Int := 1 + first.toList.count '\n'
    let stepwise := (session.run first).2.run second
    let batch := session.run (first ++ "\n" ++ second)
    stepwise.1 = batch.1 ∧ stepwise.2.Relined (Moved k) batch.2 ∧
      ∃ lowered, RelinedAll (Below k) (parseSource session.limits second).statements lowered ∧
        let shifted := (session.run first).2.interpret lowered
        shifted.1 = batch.1 ∧ shifted.2.untraced = batch.2.untraced := by
  intro k stepwise batch
  obtain ⟨lowered, hparse, hlowered⟩ := parseSource_break hfirst hsecond
  have hclean : (parseSource session.limits (first ++ "\n" ++ second)).diagnostics = [] := by
    rw [hparse]
  obtain ⟨entries, hran⟩ := session.run_of_clean hfirst
  obtain ⟨entries', hbatch⟩ := session.run_of_clean hclean
  -- the statements of the second source on their lines in the one source
  have logged : (session.logAll entries).Relined Eq (session.logAll entries') :=
    (Relined.same (fun _ => rfl) session).logAll _ _
  obtain ⟨hend, hexact⟩ := logged.interpret_append (by rw [← hran]; exact hrun) lowered
  rw [hparse] at hbatch
  rw [← hran, ← hbatch] at hend hexact
  -- the same statements on the lines of the second source
  have hlimits : (session.run first).2.limits = session.limits := by
    rw [hran, interpret_limits, logAll_limits]
  have hsecond' : (parseSource (session.run first).2.limits second).diagnostics = [] := by
    rw [hlimits]
    exact hsecond
  obtain ⟨entries₂, hstep⟩ := (session.run first).2.run_of_clean hsecond'
  have hmoved : ∀ line, Moved k line line := fun _ => .inl rfl
  have relined : ((session.run first).2.logAll entries₂).Relined (Moved k) (session.run first).2 :=
    (Relined.same hmoved _).congr (logAll_untraced _ entries₂).symm rfl
  rw [hlimits] at hstep
  obtain ⟨hend', hrelined⟩ := relined.interpret hmoved (hlowered (Moved k) fun _ _ h => .inr h)
  rw [← hstep] at hend' hrelined
  have hbelow := hlowered (Below k) fun _ _ h => h
  have hsame := hexact.untraced_eq
  exact ⟨hend'.trans hend, hrelined.congr rfl hsame, lowered, hbelow, hend, hsame⟩

def caller : String := "fun call(f) \x7b\n  return f(nil);\n\x7d"

def callee : String := "fun negate(x) \x7b\n  return -x;\n\x7d\nprint call;\ncall(negate);"

/-- A function of one source calls back into the other one, which fails there. -/
theorem callback_append :
    let session := start "" 0 1
    (parseSource session.limits caller).diagnostics = [] ∧
      (parseSource session.limits callee).diagnostics = [] ∧
      (session.run caller).1 = .finished true ∧
      ((session.run caller).2.run callee).1 = (session.run (caller ++ "\n" ++ callee)).1 ∧
      ((session.run caller).2.run callee).2.Relined (Moved 3)
        (session.run (caller ++ "\n" ++ callee)).2 := by
  intro session
  have hcaller : (parseSource session.limits caller).diagnostics = [] :=
    List.isEmpty_iff.mp (by decide +kernel)
  have hcallee : (parseSource session.limits callee).diagnostics = [] :=
    List.isEmpty_iff.mp (by decide +kernel)
  have hrun : (session.run caller).1 = .finished true := by decide +kernel
  have hlines : (1 : Int) + caller.toList.count '\n' = 3 := by decide +kernel
  obtain ⟨hend, hrelined, -⟩ := run_append session caller callee hcaller hcallee hrun
  rw [hlines] at hrelined
  exact ⟨hcaller, hcallee, hrun, hend, hrelined⟩

end Session

end GameScript
