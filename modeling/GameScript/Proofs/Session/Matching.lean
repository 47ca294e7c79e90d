import GameScript.Proofs.Matching.Evaluator
import GameScript.Proofs.Session.Basic

/-! # Sessions that match

Two sessions match if their machines do and if they have been told of the same problems, one for one,
up to a relation between diagnostics. Reporting diagnostics that are related, running trees that match
and running sources that parse to such trees all keep sessions matching, and end the same. -/

namespace GameScript

variable {N T : Token → Token → Prop} {D : Diagnostic → Diagnostic → Prop}

/-- The same end of a program, but for the text of an operator that is no operator. -/
inductive Outcome.Matches (T : Token → Token → Prop) : Outcome → Outcome → Prop where
  | finished (ok : Bool) : Outcome.Matches T (.finished ok) (.finished ok)
  | endless : Outcome.Matches T .endless .endless
  | broken {defect defect' : Defect} : Defect.Matches T defect defect' →
      Outcome.Matches T (.broken defect) (.broken defect')

theorem Outcome.Matches.eq (hT : ∀ {t t'}, T t t' → t.text = t'.text) {outcome outcome' : Outcome}
    (h : Outcome.Matches T outcome outcome') : outcome = outcome' := by
  cases h with
  | finished => rfl
  | endless => rfl
  | broken hdefect => rw [hdefect.eq hT]

/-- A relation between diagnostics that keeps their sort and holds of the same error at tokens that
match. -/
structure Reported (N T : Token → Token → Prop) (D : Diagnostic → Diagnostic → Prop) : Prop where
  isSyntax : ∀ {d d'}, D d d' → d.origin.isSyntax = d'.origin.isSyntax
  fault : ∀ {cause cause' token token'}, Fault.Matches T cause cause' →
    Option.Rel (fun t t' => N t t' ∨ T t t') token token' →
    D (cause.diagnostic token) (cause'.diagnostic token')

/-- The same diagnostics, in the same order, up to a relation. -/
structure Ledger.Matches (D : Diagnostic → Diagnostic → Prop) (l l' : Ledger) : Prop where
  items : List.Forall₂ D l.items.toList l'.items.toList
  hadError : l.hadError = l'.hadError
  hadRuntimeError : l.hadRuntimeError = l'.hadRuntimeError

theorem Ledger.Matches.report (hD : Reported N T D) {l l' : Ledger} (h : l.Matches D l')
    {d d' : Diagnostic} (hd : D d d') : (l.report d).Matches D (l'.report d') := by
  refine ⟨?_, ?_, ?_⟩
  · simp only [Ledger.report, Array.toList_push]
    exact List.rel_append h.items (.cons hd .nil)
  · simp only [Ledger.report, h.hadError, hD.isSyntax hd]
  · simp only [Ledger.report, h.hadRuntimeError, hD.isSyntax hd]

namespace Session

/-- The same session up to tokens and diagnostics, with any trace. The error streams have got
diagnostics that are related since they were the same. -/
structure Matches (N T : Token → Token → Prop) (D : Diagnostic → Diagnostic → Prop)
    (s s' : Session) : Prop where
  machine : s.machine.Matches N T s'.machine
  ledger : s.ledger.Matches D s'.ledger
  errors : ∃ before ds ds', List.Forall₂ D ds ds' ∧
    s.errors = ds.foldl (fun errors d => errors ++ d.text ++ "\n") before ∧
    s'.errors = ds'.foldl (fun errors d => errors ++ d.text ++ "\n") before
  settings : s.settings = s'.settings
  limits : s.limits = s'.limits

namespace Matches

variable {s s' : Session}

theorem same (hN : ∀ token, N token token) (hT : ∀ token, T token token) (hD : ∀ d, D d d)
    (s : Session) : s.Matches N T D s := by
  refine ⟨.same hN hT _, ⟨?_, rfl, rfl⟩, ⟨s.errors, [], [], .nil, rfl, rfl⟩, rfl, rfl⟩
  exact List.forall₂_same.mpr fun d _ => hD d

theorem withMachine (h : s.Matches N T D s') {m m' : Machine} (hm : m.Matches N T m') :
    Matches N T D { s with machine := m } { s' with machine := m' } :=
  ⟨hm, h.ledger, h.errors, h.settings, h.limits⟩

theorem logAll (h : s.Matches N T D s') (entries entries' : List Trace.Entry) :
    (s.logAll entries).Matches N T D (s'.logAll entries') := by
  obtain ⟨log, hlog⟩ := s.logAll_eq entries
  obtain ⟨log', hlog'⟩ := s'.logAll_eq entries'
  rw [hlog, hlog']
  exact h.withMachine (h.machine.withLog log log')

theorem enter (hD : Reported N T D) (h : s.Matches N T D s') {d d' : Diagnostic} (hd : D d d') :
    (s.enter d).Matches N T D (s'.enter d') := by
  refine ⟨h.machine, h.ledger.report hD hd, ?_, h.settings, h.limits⟩
  obtain ⟨before, ds, ds', hds, he, he'⟩ := h.errors
  refine ⟨before, ds ++ [d], ds' ++ [d'], List.rel_append hds (.cons hd .nil), ?_, ?_⟩
  · rw [List.foldl_append, ← he]
    rfl
  · rw [List.foldl_append, ← he']
    rfl

theorem enterAll (hD : Reported N T D) (h : s.Matches N T D s') {ds ds' : List Diagnostic}
    (hds : List.Forall₂ D ds ds') :
    (ds.foldl Session.enter s).Matches N T D (ds'.foldl Session.enter s') := by
  induction hds generalizing s s' with
  | nil => exact h
  | cons hd _ ih => exact ih (h.enter hD hd)

theorem report (hD : Reported N T D) (h : s.Matches N T D s') {d d' : Diagnostic} (hd : D d d') :
    (s.report d).Matches N T D (s'.report d') := (h.enter hD hd).logAll _ _

/-- Statements that end the same leave sessions that match. -/
theorem settle (hD : Reported N T D) (h : s.Matches N T D s')
    {result result' : EStateM.Result Stop Machine Unit} (hr : Eval.Agrees N T Eq result result') :
    Outcome.Matches T (s.settle result).1 (s'.settle result').1 ∧
      (s.settle result).2.Matches N T D (s'.settle result').2 := by
  cases hr with
  | ok _ hm => exact ⟨.finished true, h.withMachine hm⟩
  | error hstop hm =>
    have reached := h.withMachine hm
    cases hstop with
    | fault hcause htoken =>
      exact ⟨.finished false, (reached.logAll _ _).report hD (hD.fault hcause htoken)⟩
    | overflow => exact ⟨.finished false, reached.report hD (hD.fault (.same _) .none)⟩
    | endless => exact ⟨.endless, reached⟩
    | broken hdefect => exact ⟨.broken hdefect, reached⟩

theorem runProgram (hN : Neutral N T) (h : s.Matches N T D s') {statements statements' : List Node}
    (hs : MatchesAll N T statements statements') {m m' : Machine} (hm : m.Matches N T m') :
    Eval.Agrees N T Eq (Eval.runProgram s.settings s.limits.running statements m)
      (Eval.runProgram s'.settings s'.limits.running statements' m') := by
  rw [h.settings, h.limits]
  exact (Eval.Related.runProgram hN _ _ hs).agrees hm

/-- Statements that match do the same to sessions that match. -/
theorem interpret (hN : Neutral N T) (hD : Reported N T D) (h : s.Matches N T D s')
    {statements statements' : List Node} (hs : MatchesAll N T statements statements') :
    Outcome.Matches T (s.interpret statements).1 (s'.interpret statements').1 ∧
      (s.interpret statements).2.Matches N T D (s'.interpret statements').2 := by
  obtain ⟨log, hlog⟩ := s.interpret_eq statements
  obtain ⟨log', hlog'⟩ := s'.interpret_eq statements'
  rw [hlog, hlog']
  exact h.settle hD (h.runProgram hN hs (h.machine.withLog log log'))

/-- Sources of which the same is reported, and whose statements match, run the same. -/
theorem run (hN : Neutral N T) (hD : Reported N T D) (h : s.Matches N T D s')
    {source source' : String}
    (hs : MatchesAll N T (parseSource s.limits source).statements
      (parseSource s'.limits source').statements)
    (hd : List.Forall₂ D (parseSource s.limits source).diagnostics
      (parseSource s'.limits source').diagnostics) :
    Outcome.Matches T (s.run source).1 (s'.run source').1 ∧
      (s.run source).2.Matches N T D (s'.run source').2 := by
  by_cases hclean : (parseSource s.limits source).diagnostics = []
  · have hclean' : (parseSource s'.limits source').diagnostics = [] := by
      rwa [hclean, List.forall₂_nil_left_iff] at hd
    obtain ⟨entries, hrun⟩ := s.run_of_clean hclean
    obtain ⟨entries', hrun'⟩ := s'.run_of_clean hclean'
    rw [hrun, hrun']
    exact (h.logAll entries entries').interpret hN hD hs
  · have hclean' : (parseSource s'.limits source').diagnostics ≠ [] := by
      intro he
      rw [he, List.forall₂_nil_right_iff] at hd
      exact hclean hd
    obtain ⟨entries, hparse⟩ := s.parse_snd source
    obtain ⟨entries', hparse'⟩ := s'.parse_snd source'
    rw [s.run_of_reported hclean, s'.run_of_reported hclean', hparse, hparse']
    exact ⟨.finished false, (h.enterAll hD hd).logAll entries entries'⟩

end Matches

end Session

end GameScript
