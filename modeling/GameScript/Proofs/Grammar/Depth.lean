import GameScript.Proofs.Grammar.Progress

/-! # The limit on open steps

A rule that may open more steps gives the same result, unless the rule with fewer steps has met its
limit: then it stops for that reason, or it has reported that a declaration nests too deeply. -/

namespace GameScript

namespace Parse

variable {α β : Type}

/-- It has been reported that a declaration nests too deeply. -/
def SaysTooDeep (c : Cursor) : Prop := ∃ d ∈ c.reported, d.message = tooDeepMessage

theorem SaysTooDeep.leads {c c' : Cursor} (h : SaysTooDeep c) (hl : c.Leads c') : SaysTooDeep c' := by
  obtain ⟨d, hd, hm⟩ := h
  exact ⟨d, hl.reported.subset hd, hm⟩

/-- A run that has met its limit. -/
def Struck : EStateM.Result Interrupt Cursor α → Prop
  | .ok _ c => SaysTooDeep c
  | .error e c => e = .tooDeep ∨ SaysTooDeep c

/-- The second rule does what the first one does, unless that one meets its limit. -/
structure Deepens (p p' : Parse α) : Prop extends Advances 0 p where
  agrees : ∀ c, p c = p' c ∨ Struck (p c)

namespace Deepens

variable {p p' : Parse α}

theorem refl (h : Advances 0 p) : Deepens p p := ⟨h, fun _ => .inl rfl⟩

theorem tooDeep (p : Parse α) : Deepens tooDeep p := ⟨.tooDeep, fun _ => .inr (.inl rfl)⟩

theorem bind {f f' : α → Parse β} (hp : Deepens p p') (hf : ∀ a, Deepens (f a) (f' a)) :
    Deepens (p >>= f) (p' >>= f') := by
  refine ⟨(hp.toAdvances.bind fun a => (hf a).toAdvances).mono (by omega), fun c => ?_⟩
  cases h : p c with
  | ok a c' =>
    rw [bind_eq_of_ok h]
    rcases hp.agrees c with he | hs
    · rw [h] at he
      rw [bind_eq_of_ok he.symm]
      exact (hf a).agrees c'
    · rw [h] at hs
      refine .inr ?_
      cases hfa : f a c' with
      | ok b c'' => exact SaysTooDeep.leads hs ((hf a).ok hfa).1
      | error e c'' => exact .inr (SaysTooDeep.leads hs ((hf a).error hfa).1)
  | error e c' =>
    rw [bind_eq_of_error h]
    rcases hp.agrees c with he | hs
    · rw [h] at he
      rw [bind_eq_of_error he.symm]
      exact .inl rfl
    · rw [h] at hs
      exact .inr hs

theorem accept {wanted : TokenKind → Bool} {f f' : Option Token → Parse β}
    (hf : ∀ token?, Deepens (f token?) (f' token?)) :
    Deepens (accept wanted >>= f) (Parse.accept wanted >>= f') := by
  refine bind (refl ⟨fun {c token? c'} h => ?_, fun h => absurd h accept_ne_error⟩) hf
  cases token? with
  | none =>
    obtain ⟨rfl, -⟩ := accept_none h
    exact ⟨.refl _, Nat.le_refl _⟩
  | some token =>
    obtain ⟨hr, -, -, rfl⟩ := accept_some h
    exact ⟨⟨List.tail_suffix _, rfl, List.prefix_refl _⟩, by rw [hr, List.length_cons]; omega⟩

theorem pure (a : α) : Deepens (pure a) (Pure.pure a) := refl (.pure a)

theorem fail (message : String) : Deepens (fail message : Parse α) (Parse.fail message) :=
  refl (.fail message)

theorem expect (kind : TokenKind) (message : String) :
    Deepens (expect kind message) (Parse.expect kind message) :=
  refl ((Advances.expect kind message).mono (by omega))

theorem discard (h : Deepens p p') : Deepens (discard p) (Functor.discard p') :=
  h.bind fun _ => pure ()

theorem check (kind : TokenKind) : Deepens (check kind) (Parse.check kind) := refl (.check kind)

theorem optional {kind : TokenKind} {rule rule' : Parse Node} (h : Deepens rule rule') :
    Deepens (optional kind rule) (Parse.optional kind rule') := by
  refine accept fun token? => ?_
  cases token? with
  | none => exact pure _
  | some token => exact h

theorem repeatWhile {σ : Type} {step step' : σ → Parse (Option σ)}
    (h : ∀ state, Deepens (step state) (step' state)) (state : σ) :
    Deepens (repeatWhile step state) (Parse.repeatWhile step' state) := by
  refine bind (refl .remaining) fun fuel => ?_
  induction fuel generalizing state with
  | zero => exact pure state
  | succ fuel ih =>
    refine bind (h state) fun next => ?_
    cases next with
    | none => exact pure state
    | some next => exact ih next

theorem items {item item' : Parse α} (h : Deepens item item') (closing : TokenKind)
    (crowded : Option String) :
    Deepens (items closing crowded item) (Parse.items closing crowded item') := by
  have after : ∀ done, Deepens (itemAfter crowded item done) (itemAfter crowded item' done) :=
    fun done => bind (refl (.complainIfCrowded crowded _)) fun _ => h.bind fun _ => pure _
  refine bind (check closing) fun empty => ?_
  split
  · exact pure []
  · refine bind (after []) fun first => bind (repeatWhile (fun done => accept fun token? => ?_) first)
      fun _ => pure _
    cases token? with
    | none => exact pure none
    | some _ => exact (after done).bind fun _ => pure _

/-! ## Rules of expressions -/

theorem anotherOperator {operand operand' : Parse Node} (h : Deepens operand operand') (level : Level)
    (left : Node) : Deepens (anotherOperator level operand left) (Parse.anotherOperator level operand' left) := by
  refine accept fun token? => ?_
  cases token? with
  | none => exact pure none
  | some operator => exact h.bind fun _ => pure _

theorem anotherSuffix {argument argument' index index' : Parse Node} (ha : Deepens argument argument')
    (hi : Deepens index index') (target : Node) :
    Deepens (anotherSuffix argument index target) (Parse.anotherSuffix argument' index' target) := by
  refine accept fun token? => ?_
  cases token? with
  | none => exact pure none
  | some opening =>
    dsimp only
    split
    · exact ((ha.items _ _).bind fun _ => (expect _ _).bind fun _ => pure _).bind fun _ => pure _
    · exact (hi.bind fun _ => (expect _ _).discard.bind fun _ => pure _).bind fun _ => pure _

theorem primaryFrom {inner inner' : Parse Node} (h : Deepens inner inner') :
    Deepens (primaryFrom inner) (Parse.primaryFrom inner') := by
  refine accept fun token? => ?_
  cases token? with
  | none => exact fail _
  | some token =>
    dsimp only
    split
    all_goals first
      | exact pure _
      | exact h.bind fun _ => (expect _ _).discard.bind fun _ => pure _
      | exact (h.items _ _).bind fun _ => (expect _ _).discard.bind fun _ => pure _

theorem rule (rule : Rule) (depth : Nat) :
    ∀ depth', depth ≤ depth' → Deepens (rule.at depth) (rule.at depth') := by
  induction rule, depth using Rule.induction with
  | deep rule depth h => exact fun _ _ => h ▸ tooDeep _
  | expression depth ih =>
    intro depth' hle
    obtain ⟨depth', rfl⟩ : ∃ d, depth' = d + 1 := ⟨depth' - 1, by omega⟩
    exact ih depth' (by omega)
  | assignment depth left value =>
    intro depth' hle
    obtain ⟨depth', rfl⟩ : ∃ d, depth' = d + 1 := ⟨depth' - 1, by omega⟩
    refine (left depth' (by omega)).bind fun target => accept fun token? => ?_
    cases token? with
    | none => exact pure _
    | some equals => exact (value depth' (by omega)).bind fun v => refl (.assignTo target equals v)
  | operators level depth ih =>
    intro depth' hle
    obtain ⟨depth', rfl⟩ : ∃ d, depth' = d + 2 := ⟨depth' - 2, by omega⟩
    show Deepens (Parse.operators level (depth + 2)) (Parse.operators level (depth' + 2))
    rw [operators_eq, operators_eq]
    have operand := ih (depth' + Rule.spare level) (by omega)
    exact operand.bind fun left => repeatWhile (operand.anotherOperator level) left
  | unary depth right call =>
    intro depth' hle
    obtain ⟨depth', rfl⟩ : ∃ d, depth' = d + 1 := ⟨depth' - 1, by omega⟩
    refine accept fun token? => ?_
    cases token? with
    | none => exact call depth' (by omega)
    | some operator => exact (right depth' (by omega)).bind fun _ => pure _
  | suffixed depth target argument index =>
    intro depth' hle
    obtain ⟨depth', rfl⟩ : ∃ d, depth' = d + 2 := ⟨depth' - 2, by omega⟩
    exact (target (depth' + 1) (by omega)).bind fun node =>
      repeatWhile ((argument depth' (by omega)).anotherSuffix (index (depth' + 1) (by omega))) node
  | primary depth inner =>
    intro depth' hle
    obtain ⟨depth', rfl⟩ : ∃ d, depth' = d + 5 := ⟨depth' - 5, by omega⟩
    exact (inner (depth' + 4) (by omega)).primaryFrom

theorem expression {depth depth' : Nat} (h : depth ≤ depth') :
    Deepens (expression depth) (Parse.expression depth') :=
  rule .expression depth depth' h

/-! ## Rules of statements -/

theorem clause {inner inner' : Parse Node} (h : Deepens inner inner') (closing : TokenKind) :
    Deepens (clause closing inner) (Parse.clause closing inner') := by
  refine (check closing).bind fun empty => ?_
  split
  · exact pure none
  · exact h.bind fun _ => pure _

theorem expressionStatement {inner inner' : Parse Node} (h : Deepens inner inner') :
    Deepens (expressionStatement inner) (Parse.expressionStatement inner') :=
  h.bind fun _ => (expect _ _).discard.bind fun _ => pure _

theorem varDeclaration {inner inner' : Parse Node} (h : Deepens inner inner') :
    Deepens (varDeclaration inner) (Parse.varDeclaration inner') :=
  (expect _ _).bind fun _ => h.optional.bind fun _ => (expect _ _).discard.bind fun _ => pure _

theorem initializerClause {inner inner' : Parse Node} (h : Deepens inner inner') :
    Deepens (initializerClause inner) (Parse.initializerClause inner') := by
  refine accept fun token? => ?_
  cases token? with
  | none => exact h.expressionStatement.bind fun _ => pure _
  | some token =>
    dsimp only
    split
    · exact pure none
    · exact h.varDeclaration.bind fun _ => pure _

theorem blockRest {declaration declaration' : Parse (Option Node)}
    (h : Deepens declaration declaration') :
    Deepens (blockRest declaration) (Parse.blockRest declaration') := by
  refine bind (repeatWhile (fun done => ?_) []) fun _ => (expect _ _).discard.bind fun _ => pure _
  refine bind (refl ((Advances.check _).bind (m := 0) fun _ => Advances.atEnd.bind (m := 0) fun _ => .pure _))
    fun ended => ?_
  split
  · exact pure none
  · exact h.bind fun _ => pure _

theorem statementFrom {initial initial' inner inner' body body' : Parse Node}
    {declaration declaration' : Parse (Option Node)} (hf : Deepens initial initial')
    (hi : Deepens inner inner') (hb : Deepens body body') (hd : Deepens declaration declaration') :
    Deepens (statementFrom initial inner body declaration)
      (Parse.statementFrom initial' inner' body' declaration') := by
  refine accept fun token? => ?_
  cases token? with
  | none => exact hi.expressionStatement
  | some keyword =>
    dsimp only
    split
    · exact (expect _ _).discard.bind fun _ => hf.initializerClause.bind fun _ =>
        (hi.clause _).bind fun _ => (expect _ _).discard.bind fun _ => (hi.clause _).bind fun _ =>
        (expect _ _).discard.bind fun _ => hb.bind fun _ => pure _
    · exact (expect _ _).discard.bind fun _ => hi.bind fun _ => (expect _ _).discard.bind fun _ =>
        hb.bind fun _ => hb.optional.bind fun _ => pure _
    · exact hi.bind fun _ => (expect _ _).discard.bind fun _ => pure _
    · exact (hi.clause _).bind fun _ => (expect _ _).discard.bind fun _ => pure _
    · exact (expect _ _).discard.bind fun _ => hi.bind fun _ => (expect _ _).discard.bind fun _ =>
        hb.bind fun _ => pure _
    · exact hd.blockRest.bind fun _ => pure _

theorem declarationFrom {inner inner' statement statement' : Parse Node}
    {declaration declaration' : Parse (Option Node)} (hi : Deepens inner inner')
    (hs : Deepens statement statement') (hd : Deepens declaration declaration') :
    Deepens (declarationFrom inner statement declaration)
      (Parse.declarationFrom inner' statement' declaration') := by
  refine accept fun token? => ?_
  cases token? with
  | none => exact hs
  | some keyword =>
    dsimp only
    split
    · exact (expect _ _).bind fun _ => (expect _ _).discard.bind fun _ =>
        (items (expect _ _) _ _).bind fun _ => (expect _ _).discard.bind fun _ =>
        (expect _ _).discard.bind fun _ => hd.blockRest.bind fun _ => pure _
    · exact hi.varDeclaration

/-- A declaration that is left out because of the limit is reported. -/
theorem recovering {p p' : Parse Node} (h : Deepens p p') :
    Deepens (recovering p) (Parse.recovering p') := by
  refine ⟨h.toAdvances.recovering, fun c => ?_⟩
  unfold Parse.recovering
  rcases h.agrees c with he | hs
  · rw [he]
    exact .inl rfl
  · refine .inr ?_
    cases hp : p c with
    | ok node c' => rw [hp] at hs; exact hs
    | error e c' =>
      rw [hp] at hs
      cases e with
      | syntaxError =>
        exact SaysTooDeep.leads (hs.resolve_left (by simp)) (Cursor.leads_synchronize c')
      | tooDeep =>
        refine SaysTooDeep.leads ?_ (Cursor.leads_synchronize _)
        exact ⟨_, List.mem_append_right _ (List.mem_singleton_self _), rfl⟩

theorem statements (depth : Nat) :
    (∀ depth', depth ≤ depth' → Deepens (declaration depth) (declaration depth')) ∧
      ∀ depth', depth ≤ depth' → Deepens (statement depth) (statement depth') := by
  refine statement_induction
    (P := fun depth => ∀ depth', depth ≤ depth' → Deepens (declaration depth) (declaration depth'))
    (Q := fun depth => ∀ depth', depth ≤ depth' → Deepens (statement depth) (statement depth'))
    (fun depth h _ _ => h ▸ tooDeep _) (fun depth h _ _ => h ▸ tooDeep _)
    (fun depth hs hd depth' hle => ?_) (fun depth hs hd depth' hle => ?_) depth
  · obtain ⟨depth', rfl⟩ : ∃ d, depth' = d + 7 := ⟨depth' - 7, by omega⟩
    have inner : Deepens (Parse.expression (depth + 5)) (Parse.expression (depth' + 5)) :=
      expression (by omega)
    exact (inner.declarationFrom (hs (depth' + 6) (by omega)) (hd (depth' + 4) (by omega))).recovering
  · obtain ⟨depth', rfl⟩ : ∃ d, depth' = d + 3 := ⟨depth' - 3, by omega⟩
    exact statementFrom (expression (by omega)) (expression (by omega)) (hs (depth' + 1) (by omega))
      (hd (depth' + 1) (by omega))

theorem program {depth depth' : Nat} (h : depth ≤ depth') :
    Deepens (program depth) (Parse.program depth') := by
  refine bind (repeatWhile (fun done => (refl .atEnd).bind fun ended => ?_) []) fun _ => pure _
  split
  · exact pure none
  · exact ((statements depth).1 depth' h).bind fun _ => pure _

end Deepens

end Parse

/-- With more open steps a program parses as with fewer, unless it is reported that a declaration
nests too deeply. -/
theorem parseTokens_deepens {limits limits' : Limits} (h : limits.parsing ≤ limits'.parsing)
    (tokens : List Token) (finish : Token) :
    parseTokens limits tokens finish = parseTokens limits' tokens finish ∨
      ∃ d ∈ (parseTokens limits tokens finish).diagnostics, d.message = Parse.tooDeepMessage := by
  unfold parseTokens
  rcases (Parse.Deepens.program h).agrees ⟨tokens, finish, []⟩ with he | hs
  · rw [he]
    exact .inl rfl
  · refine .inr ?_
    cases hp : Parse.program limits.parsing ⟨tokens, finish, []⟩ with
    | ok trees c => rw [hp] at hs; exact hs
    | error e c => exact ⟨_, List.mem_append_right _ (List.mem_singleton_self _), rfl⟩

end GameScript
