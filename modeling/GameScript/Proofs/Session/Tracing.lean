import GameScript.Proofs.Regrouping.Session
import GameScript.Proofs.Session.Batch

/-! # What tracing changes

A run that traces and one that does not do the same as long as there is room for the texts of the
values that are traced. An array that contains itself has no text, so there tracing shows: a variable
that is declared with it, or a condition that it is the value of, stops the program. -/

namespace GameScript

theorem Node.SameParts.eq {node node' : Node} (h : Node.SameParts Eq node node') : node = node' := by
  cases h with
  | sequence hs =>
    rw [List.forall₂_eq_eq_eq] at hs
    rw [hs]
  | other => rfl

theorem Closure.Resembles.eq {c c' : Closure} (h : c.Resembles Eq c') : c = c' := by
  cases c
  cases c'
  simp only [Closure.mk.injEq]
  exact ⟨h.name, h.params, h.body.eq, h.scope⟩

theorem Store.Resembles.eq {s s' : Store} (h : s.Resembles Eq s') : s = s' := by
  have hclosures := h.closures.imp fun _ _ hc => hc.eq
  rw [List.forall₂_eq_eq_eq, Array.toList_inj] at hclosures
  cases s
  cases s'
  simp only [Store.mk.injEq]
  exact ⟨h.scopes, h.arrays, hclosures⟩

namespace Session

/-- The session in which nothing is traced, and no text is built for it. -/
def quiet (session : Session) : Session :=
  { session with settings := { session.settings with tracing := none } }

theorem Resembles.untraced_eq {session session' : Session} (h : session.Resembles Eq session')
    (hsettings : session.settings = session'.settings) (hlimits : session.limits = session'.limits) :
    session.untraced = session'.untraced := by
  unfold untraced
  dsimp only
  rw [h.machine.store.eq, h.machine.input, h.machine.output, h.machine.clock, h.ledger, h.errors,
    hsettings, hlimits]

/-- A run that does not run out of room does the same without a trace: it ends with the same outcome,
and leaves the same output, diagnostics, bindings, arrays and functions. -/
theorem interpret_quiet (session : Session) (statements : List Node)
    (h : ¬session.Overflows statements) :
    (session.interpret statements).1 = (session.quiet.interpret statements).1 ∧
      (session.interpret statements).2.quiet.untraced =
        (session.quiet.interpret statements).2.untraced := by
  have hquiets : session.settings.Quiets session.quiet.settings := ⟨rfl, .inl rfl⟩
  have hroom : (2 * 0 + 1) * session.limits.running ≤ session.quiet.limits.running := by
    change _ ≤ session.limits.running
    omega
  have hfollows := Eval.Follows.runProgram .equal hquiets hroom
    (List.forall₂_same.mpr fun node (_ : node ∈ statements) => Eq.refl node)
  have hsame := Resembles.refl session
  have hstart : session.Resembles Eq session.quiet := ⟨hsame.machine, hsame.ledger, hsame.errors⟩
  obtain ⟨hend, hleft⟩ := Agrees.of_follows hstart hfollows h
  have hleft' : (session.interpret statements).2.quiet.Resembles Eq
      (session.quiet.interpret statements).2 := ⟨hleft.machine, hleft.ledger, hleft.errors⟩
  refine ⟨hend, hleft'.untraced_eq ?_ ?_⟩
  · rw [interpret_settings, quiet, interpret_settings]
    rfl
  · rw [interpret_limits]
    exact session.interpret_limits statements

/-- An array that contains itself, and is looked at where nothing is traced of it. -/
def measuredLoop : String := "var a = []; push(a, a); print len(a);"

theorem measuredLoop_quiet :
    let session := start "" 0 1
    let statements := (parseSource session.limits measuredLoop).statements
    ¬session.Overflows statements ∧
      (session.interpret statements).2.machine.output = "1\n" ∧
      (session.quiet.interpret statements).1 = .finished true ∧
      (session.quiet.interpret statements).2.machine.output = "1\n" := by
  intro session statements
  have hrun : (session.interpret statements).1 = .finished true := by decide +kernel
  have hout : (session.interpret statements).2.machine.output = "1\n" := by decide +kernel
  clear_value statements session
  obtain ⟨hend, hleft⟩ := interpret_quiet session statements (not_overflows hrun)
  have houtput := congrArg (·.machine.output) hleft
  exact ⟨not_overflows hrun, hout, hend.symm.trans hrun, houtput.symm.trans hout⟩

def testedLoop : String := "var a = []; push(a, a); if (a) print \"yes\";"

/-- A condition that is an array which contains itself holds, but not if anything is traced, even if no
message is kept. -/
theorem testedLoop_traced :
    let session := start "" 0 1
    let statements := (parseSource session.limits testedLoop).statements
    (session.interpret statements).1 = .finished false ∧
      (session.interpret statements).2.machine.output = "" ∧
      (session.interpret statements).2.errors =
        "[line 0] Runtime error (StackOverflow): Expression nesting too deep.\n" ∧
      (session.quiet.interpret statements).1 = .finished true ∧
      (session.quiet.interpret statements).2.machine.output = "yes\n" := by
  decide +kernel

end Session

end GameScript
