import GameScript.Proofs.Regrouping.Evaluator
import GameScript.Proofs.Session.Basic

/-! # Parentheses do not matter

Statements do the same with and without the groupings in them and in the functions of a session. Only
the room that they need is different: without groupings it is never more, and with them it is at most
a multiple of what it is without. -/

namespace GameScript

open Node (SameParts SameUngrouped)

/-- The function without the groupings in its body. -/
def Closure.ungrouped (closure : Closure) : Closure :=
  { closure with body := closure.body.ungroupedBody }

/-- The store without the groupings in its functions. -/
def Store.ungrouped (store : Store) : Store :=
  { store with closures := store.closures.map Closure.ungrouped }

theorem forall₂_eq_map {α β : Type} {f : α → β} {as as' : List α} :
    List.Forall₂ (fun a a' => f a = f a') as as' ↔ as.map f = as'.map f := by
  rw [← List.forall₂_eq_eq_eq, List.forall₂_map_left_iff, List.forall₂_map_right_iff]

theorem Node.SameParts.ungroupedBody_eq {node node' : Node} (h : SameParts SameUngrouped node node') :
    node.ungroupedBody = node'.ungroupedBody := by
  cases h with
  | sequence hs =>
    simp only [ungroupedBody, ungroupedStatements_eq]
    rw [forall₂_eq_map.mp hs]
  | other => rfl

theorem Closure.Resembles.ungrouped_eq {c c' : Closure} (h : c.Resembles SameUngrouped c') :
    c.ungrouped = c'.ungrouped := by
  unfold Closure.ungrouped
  rw [h.name, h.params, h.scope, h.body.ungroupedBody_eq]

namespace Session

/-! ## Runs that agree -/

/-- The session without the groupings in its functions. -/
def ungrouped (session : Session) : Session :=
  { session with machine := { session.machine with store := session.machine.store.ungrouped } }

/-- The session with other room for programs to run in. -/
def within (session : Session) (room : Nat) : Session :=
  { session with limits := { session.limits with running := room } }

/-- The same bindings, arrays, streams and diagnostics. Functions have bodies that `S` relates, and
the traces may be any. -/
structure Resembles (S : Node → Node → Prop) (session session' : Session) : Prop where
  machine : session.machine.Resembles S session'.machine
  ledger : session.ledger = session'.ledger
  errors : session.errors = session'.errors

/-- Running statements reports that there is not enough room. -/
def Overflows (session : Session) (statements : List Node) : Prop :=
  ∃ line message, (session.interpret statements).2.ledger =
    session.ledger.report ⟨line, .runtime .stackOverflow, message⟩

/-- Statements that run to their end had enough room. -/
theorem not_overflows {session : Session} {statements : List Node}
    (h : (session.interpret statements).1 = .finished true) : ¬session.Overflows statements := by
  rintro ⟨line, message, hreported⟩
  obtain ⟨log, hrun⟩ := session.interpret_eq statements
  rw [hrun] at h hreported
  obtain ⟨machine, hok⟩ := settle_finished h
  rw [hok] at hreported
  have hsize := congrArg (·.items.size) hreported
  simp [settle, Ledger.report] at hsize

/-- Unless one session has not enough room for its statements, another one ends with the same outcome
on its own statements and they still resemble each other. -/
def Agrees (S : Node → Node → Prop) (session : Session) (statements : List Node)
    (session' : Session) (statements' : List Node) : Prop :=
  ¬session.Overflows statements →
    (session.interpret statements).1 = (session'.interpret statements').1 ∧
    (session.interpret statements).2.Resembles S (session'.interpret statements').2

variable {S S' S'' : Node → Node → Prop} {session session' session'' : Session}
  {statements statements' statements'' : List Node}

theorem Resembles.trans (hS : ∀ a b c, S a b → S' b c → S'' a c)
    (h : session.Resembles S session') (h' : session'.Resembles S' session'') :
    session.Resembles S'' session'' :=
  ⟨h.machine.trans hS h'.machine, h.ledger.trans h'.ledger, h.errors.trans h'.errors⟩

theorem Resembles.refl (session : Session) : session.Resembles Eq session :=
  ⟨.refl session.machine, rfl, rfl⟩

theorem Resembles.symm (hS : ∀ a b, S a b → S b a) (h : session.Resembles S session') :
    session'.Resembles S session :=
  ⟨h.machine.symm hS, h.ledger.symm, h.errors.symm⟩

theorem Resembles.within (h : session.Resembles S session') (room room' : Nat) :
    (session.within room).Resembles S (session'.within room') :=
  ⟨h.machine, h.ledger, h.errors⟩

theorem Resembles.withMachine (h : session.Resembles S session') {m m' : Machine}
    (hm : m.Resembles S m') :
    Resembles S { session with machine := m } { session' with machine := m' } :=
  ⟨hm, h.ledger, h.errors⟩

theorem Resembles.logAll (h : session.Resembles S session') (entries entries' : List Trace.Entry) :
    (session.logAll entries).Resembles S (session'.logAll entries') := by
  obtain ⟨log, hlog⟩ := session.logAll_eq entries
  obtain ⟨log', hlog'⟩ := session'.logAll_eq entries'
  rw [hlog, hlog']
  exact h.withMachine (h.machine.withLog log log')

theorem Resembles.report (h : session.Resembles S session') (d : Diagnostic) :
    (session.report d).Resembles S (session'.report d) := by
  have hentered : (session.enter d).Resembles S (session'.enter d) := by
    refine ⟨h.machine, ?_, ?_⟩
    · simp only [enter, h.ledger]
    · simp only [enter, h.errors]
  exact hentered.logAll [d.entry] [d.entry]

theorem Agrees.trans (hS : ∀ a b c, S a b → S' b c → S'' a c)
    (h : Agrees S session statements session' statements')
    (h' : Agrees S' session' statements' session'' statements'')
    (hledger : session.ledger = session'.ledger) :
    Agrees S'' session statements session'' statements'' := by
  intro hroom
  obtain ⟨hend, hleft⟩ := h hroom
  have hroom' : ¬session'.Overflows statements' := by
    rintro ⟨line, message, hreported⟩
    exact hroom ⟨line, message, by rw [hleft.ledger, hreported, hledger]⟩
  obtain ⟨hend', hleft'⟩ := h' hroom'
  exact ⟨hend.trans hend', hleft.trans hS hleft'⟩

/-- Sessions agree if the programs follow each other. -/
theorem Agrees.of_follows (h : session.Resembles S session')
    (hp : Eval.Follows S (Eval.runProgram session.settings session.limits.running statements)
      (Eval.runProgram session'.settings session'.limits.running statements')) :
    Agrees S session statements session' statements' := by
  intro hroom
  obtain ⟨log, hrun⟩ := session.interpret_eq statements
  obtain ⟨log', hrun'⟩ := session'.interpret_eq statements'
  have hends := hp.ends (h.machine.withLog log log')
  rw [Overflows, hrun] at hroom
  rw [hrun, hrun']
  generalize Eval.runProgram session.settings session.limits.running statements _ = result at *
  generalize Eval.runProgram session'.settings session'.limits.running statements' _ = result' at *
  cases hends with
  | ok hd => exact ⟨rfl, h.withMachine hd⟩
  | @error stop m m' hd =>
    have hleft := h.withMachine hd
    cases stop with
    | fault cause token => exact ⟨rfl, (hleft.logAll _ _).report _⟩
    | overflow => exact ⟨rfl, hleft.report _⟩
    | endless => exact ⟨rfl, hleft⟩
    | broken => exact ⟨rfl, hleft⟩
  | @exhausted stop m _ hs =>
    refine absurd ?_ hroom
    cases stop with
    | fault cause token =>
      have hname : cause.name = .stackOverflow := of_decide_eq_true hs
      refine ⟨(token.map (·.line)).getD (.int 0), cause.message, ?_⟩
      simp only [settle, report, enter, logAll_ledger, Fault.diagnostic, hname]
    | overflow =>
      refine ⟨.int 0, Fault.nestingTooDeep.message, ?_⟩
      simp only [settle, report, enter, logAll_ledger]
      rfl
    | endless => cases hs
    | broken => cases hs

/-! ## With and without groupings -/

theorem ungrouped_resembles (session : Session) :
    session.Resembles (fun node node' => node.ungroupedStatement = node') session.ungrouped := by
  refine ⟨⟨⟨rfl, rfl, ?_⟩, rfl, rfl, rfl⟩, rfl, rfl⟩
  simp only [ungrouped, Store.ungrouped, Array.toList_map]
  refine List.forall₂_map_right_iff.mpr (List.forall₂_same.mpr fun closure _ => ?_)
  exact ⟨rfl, rfl, Regrouping.sameBody_shedding closure.body, rfl⟩

/-- Groupings come back to functions that are not nested more deeply than `gains`. -/
theorem Resembles.regrouped (h : session.Resembles SameUngrouped session') {gains : Nat}
    (hdepth : ∀ closure ∈ session'.machine.store.closures.toList, closure.body.depth 1 0 ≤ gains) :
    session.ungrouped.Resembles
      (fun node node' => node'.ungroupedStatement = node ∧ node'.depth 1 0 ≤ gains) session' := by
  refine ⟨⟨⟨h.machine.store.scopes, h.machine.store.arrays, ?_⟩, h.machine.input, h.machine.output,
    h.machine.clock⟩, h.ledger, h.errors⟩
  have hsame : session.machine.store.closures.toList.map Closure.ungrouped =
      session'.machine.store.closures.toList.map Closure.ungrouped :=
    forall₂_eq_map.mp (h.machine.store.closures.imp fun _ _ hc => hc.ungrouped_eq)
  simp only [ungrouped, Store.ungrouped, Array.toList_map, hsame]
  refine List.forall₂_map_left_iff.mpr (List.forall₂_same.mpr fun closure hc => ?_)
  exact ⟨rfl, rfl, Regrouping.sameBody_gaining closure.body (hdepth closure hc), rfl⟩

/-- Taking all groupings off takes no more room. -/
theorem Agrees.shedding (session : Session) (statements : List Node) (room : Nat) :
    Agrees (fun node node' => node.ungroupedStatement = node') (session.within room) statements
      (session.ungrouped.within room) (statements.map Node.ungroupedStatement) := by
  have hall : List.Forall₂ (fun node node' => node.ungroupedStatement = node') statements
      (statements.map Node.ungroupedStatement) :=
    List.forall₂_map_right_iff.mpr (List.forall₂_same.mpr fun _ _ => rfl)
  refine .of_follows (session.ungrouped_resembles.within room room) ?_
  refine .runProgram .shedding ⟨rfl, .inr rfl⟩ ?_ hall
  change (2 * 0 + 1) * room ≤ room
  omega

/-- Sessions that are the same but for groupings agree on statements that are. The second one has to
have room for the groupings that it has more, in its functions and in its statements. -/
theorem Agrees.regrouped (h : session.Resembles SameUngrouped session')
    (hsettings : session.settings = session'.settings)
    (hall : List.Forall₂ SameUngrouped statements statements') :
    ∃ factor, ∀ {room room'}, factor * room ≤ room' →
      Agrees SameUngrouped (session.within room) statements (session'.within room') statements' := by
  let bodies := session'.machine.store.closures.toList.map Closure.body
  let gains := max (Node.depthOfAll 1 0 statements') (Node.depthOfAll 1 0 bodies)
  refine ⟨2 * gains + 1, fun {room room'} hr => ?_⟩
  have hdepth : ∀ closure ∈ session'.machine.store.closures.toList,
      closure.body.depth 1 0 ≤ gains := fun closure hc =>
    Nat.le_trans (Regrouping.depth_le_depthOfAll (List.mem_map_of_mem hc)) (Nat.le_max_right _ _)
  have hplain : List.Forall₂
      (fun node node' => node'.ungroupedStatement = node ∧ node'.depth 1 0 ≤ gains)
      (statements.map Node.ungroupedStatement) statements' := by
    rw [forall₂_eq_map.mp hall]
    refine List.forall₂_map_left_iff.mpr (List.forall₂_same.mpr fun node hn => ⟨rfl, ?_⟩)
    exact Nat.le_trans (Regrouping.depth_le_depthOfAll hn) (Nat.le_max_left _ _)
  -- All groupings go, and then those of the other session come back.
  have hgo := Agrees.shedding session statements room
  have hcome : Agrees (fun node node' => node'.ungroupedStatement = node ∧ node'.depth 1 0 ≤ gains)
      (session.ungrouped.within room) (statements.map Node.ungroupedStatement)
      (session'.within room') statements' := by
    refine .of_follows ((h.regrouped hdepth).within room room') ?_
    exact .runProgram (.gaining gains) ⟨congrArg _ hsettings, .inr (congrArg _ hsettings.symm)⟩ hr
      hplain
  have hboth : ∀ a b c : Node, a.ungroupedStatement = b →
      c.ungroupedStatement = b ∧ c.depth 1 0 ≤ gains → SameUngrouped a c :=
    fun _ _ _ hb hc => hb.trans hc.1.symm
  exact hgo.trans hboth hcome rfl

/-- Groupings change nothing. Whatever the functions of a session, statements without their groupings
end as they do with them, and leave the same output, diagnostics, bindings and arrays, and functions
that are the same but for groupings. Without any groupings they need no more room. With them, or where
functions of the session still have them, a multiple of it is enough. -/
theorem interpret_ungrouped (h : session.Resembles SameUngrouped session')
    (hsettings : session.settings = session'.settings) (statements : List Node) :
    let plain := statements.map Node.ungroupedStatement
    (∀ room, Agrees SameUngrouped (session.within room) statements
      (session.ungrouped.within room) plain) ∧
    ∃ factor, ∀ room room', factor * room ≤ room' →
      Agrees SameUngrouped (session.within room) statements (session'.within room') plain ∧
      Agrees SameUngrouped (session'.within room) plain (session.within room') statements := by
  intro plain
  have hplain : List.Forall₂ SameUngrouped statements plain :=
    List.forall₂_map_right_iff.mpr (List.forall₂_same.mpr fun node _ =>
      (Node.ungroupedStatement_ungroupedStatement node).symm)
  constructor
  · intro room hroom
    obtain ⟨hend, hleft⟩ := Agrees.shedding session statements room hroom
    have hweaken : ∀ a b c : Node, a.ungroupedStatement = b → b = c → SameUngrouped a c := by
      rintro a _ _ rfl rfl
      exact (Node.ungroupedStatement_ungroupedStatement a).symm
    exact ⟨hend, hleft.trans hweaken (.refl _)⟩
  · obtain ⟨factor, hthere⟩ := Agrees.regrouped h hsettings hplain
    obtain ⟨factor', hback⟩ :=
      Agrees.regrouped (h.symm fun _ _ => Eq.symm) hsettings.symm
        (hplain.imp fun _ _ => Eq.symm).flip
    refine ⟨max factor factor', fun room room' hr => ⟨hthere ?_, hback ?_⟩⟩
    · exact Nat.le_trans (Nat.mul_le_mul_right _ (Nat.le_max_left _ _)) hr
    · exact Nat.le_trans (Nat.mul_le_mul_right _ (Nat.le_max_right _ _)) hr

/-- A function writes into a string at a place in parentheses. -/
def putter : String := "fun put(xs) \x7b (xs[0])[1] = (\"p\"); \x7d"

def putting : String := "var xs = [\"ab\"]; put((xs)); print (xs)[0];"

/-- The same string is written and shown without parentheses in the function and around its call. -/
theorem putting_ungrouped :
    let session := ((start "" 0 1).run putter).2
    let statements := (parseSource session.limits putting).statements
    let plain := statements.map Node.ungroupedStatement
    session.Resembles SameUngrouped session ∧ (session.interpret statements).1 = .finished true ∧
      (session.interpret statements).2.machine.output = "ap\n" ∧
      (session.ungrouped.interpret plain).1 = .finished true ∧
      (session.ungrouped.interpret plain).2.machine.output = "ap\n" ∧
      ∃ room, ((session.within room).interpret plain).1 = .finished true ∧
        ((session.within room).interpret plain).2.machine.output = "ap\n" := by
  intro session statements plain
  have hsame : session.Resembles SameUngrouped session :=
    (Resembles.refl session).trans (fun _ _ _ h h' => congrArg _ (h.trans h')) (.refl session)
  have hrun : (session.interpret statements).1 = .finished true := by decide +kernel
  have hout : (session.interpret statements).2.machine.output = "ap\n" := by decide +kernel
  clear_value statements session
  obtain ⟨hplain, factor, hfactor⟩ := interpret_ungrouped hsame rfl statements
  obtain ⟨hend, hleft⟩ := hplain session.limits.running (not_overflows hrun)
  obtain ⟨hend', hleft'⟩ :=
    (hfactor session.limits.running _ (Nat.le_refl _)).1 (not_overflows hrun)
  exact ⟨hsame, hrun, hout, hend.symm.trans hrun, hleft.machine.output.symm.trans hout, _,
    hend'.symm.trans hrun, hleft'.machine.output.symm.trans hout⟩

end Session

end GameScript
