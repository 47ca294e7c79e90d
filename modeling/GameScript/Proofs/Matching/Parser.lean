import GameScript.Proofs.Grammar.Progress
import GameScript.Proofs.Matching.Tree

/-! # Parsing looks at kinds and literals only

Two runs of a rule on tokens that match, kind by kind, give trees that match and report the same
problems at tokens that match. What it means for trees to match is left open: `Respects` asks only
that it goes along with each way in which the parser builds a node. -/

namespace GameScript

/-- The same position up to a relation between tokens. -/
structure Cursor.Matches (T : Token → Token → Prop) (c c' : Cursor) : Prop where
  rest : List.Forall₂ T c.rest c'.rest
  finish : T c.finish c'.finish
  reported : List.Forall₂ (Diagnostic.Matches T) c.reported c'.reported

/-- A relation between tokens of the same kind. -/
def KeepsKind (T : Token → Token → Prop) : Prop :=
  ∀ token token', T token token' → token.kind = token'.kind

namespace Cursor.Matches

variable {T : Token → Token → Prop} {c c' : Cursor}

theorem peek (h : c.Matches T c') : T c.peek c'.peek := by
  obtain ⟨rest, finish, reported⟩ := c
  obtain ⟨rest', finish', reported'⟩ := c'
  cases h.rest with
  | nil => exact h.finish
  | cons ht _ => exact ht

theorem report (h : c.Matches T c') {token token' : Token} (ht : T token token') (message : String) :
    (c.report token message).Matches T (c'.report token' message) :=
  ⟨h.rest, h.finish, List.rel_append h.reported (.cons ⟨token, token', message, ht, rfl, rfl⟩ .nil)⟩

theorem resume (hT : KeepsKind T) {ts ts' : List Token} (h : List.Forall₂ T ts ts') :
    ∀ {token token' : Token}, token.kind = token'.kind →
      List.Forall₂ T (Cursor.resume token ts) (Cursor.resume token' ts') := by
  induction h with
  | nil => exact fun _ => .nil
  | cons ht hs ih =>
    intro token token' hk
    rw [Cursor.resume, Cursor.resume, hk, hT _ _ ht]
    split
    · exact .cons ht hs
    · exact ih (hT _ _ ht)

theorem synchronize (hT : KeepsKind T) (h : c.Matches T c') :
    c.synchronize.Matches T c'.synchronize := by
  obtain ⟨rest, finish, reported⟩ := c
  obtain ⟨rest', finish', reported'⟩ := c'
  cases h.rest with
  | nil => exact h
  | cons ht hs => exact ⟨resume hT hs (hT _ _ ht), h.finish, h.reported⟩

end Cursor.Matches

namespace Parse

variable {α β : Type} {T : Token → Token → Prop}

/-- The same outcome up to a relation between results. -/
inductive Agrees (T : Token → Token → Prop) (A : α → α → Prop) :
    EStateM.Result Interrupt Cursor α → EStateM.Result Interrupt Cursor α → Prop where
  | ok {a a' : α} {c c' : Cursor} : A a a' → c.Matches T c' → Agrees T A (.ok a c) (.ok a' c')
  | error {e : Interrupt} {c c' : Cursor} : c.Matches T c' → Agrees T A (.error e c) (.error e c')

/-- Two rules that agree at positions that match. -/
structure Related (T : Token → Token → Prop) (A : α → α → Prop) (p p' : Parse α) : Prop where
  agrees : ∀ {c c'}, c.Matches T c' → Agrees T A (p c) (p' c')

namespace Related

variable {A A' : α → α → Prop} {B : β → β → Prop} {p p' : Parse α}

theorem mono (h : Related T A p p') (hA : ∀ a a', A a a' → A' a a') : Related T A' p p' := by
  refine ⟨fun {c c'} hc => ?_⟩
  have hr := h.agrees hc
  generalize p c = r at hr
  generalize p' c' = r' at hr
  cases hr with
  | ok ha hd => exact .ok (hA _ _ ha) hd
  | error hd => exact .error hd

theorem pure {a a' : α} (h : A a a') : Related T A (pure a) (Pure.pure a') :=
  ⟨fun hc => .ok h hc⟩

theorem tooDeep : Related T A (tooDeep : Parse α) Parse.tooDeep := ⟨fun hc => .error hc⟩

theorem fail (message : String) : Related T A (fail message) (Parse.fail message) :=
  ⟨fun hc => .error (hc.report hc.peek message)⟩

theorem complain {token token' : Token} (ht : T token token') (message : String) :
    Related T Eq (complain token message) (Parse.complain token' message) :=
  ⟨fun hc => .ok rfl (hc.report ht message)⟩

theorem bind {f f' : α → Parse β} (hp : Related T A p p')
    (hf : ∀ {a a'}, A a a' → Related T B (f a) (f' a')) :
    Related T B (p >>= f) (p' >>= f') := by
  refine ⟨fun {c c'} hc => ?_⟩
  have h := hp.agrees hc
  cases hpc : p c with
  | ok a d =>
    rw [hpc] at h
    generalize hpc' : p' c' = r' at h
    cases h with
    | ok ha hd =>
      rw [bind_eq_of_ok hpc, bind_eq_of_ok hpc']
      exact (hf ha).agrees hd
  | error e d =>
    rw [hpc] at h
    generalize hpc' : p' c' = r' at h
    cases h with
    | error hd =>
      rw [bind_eq_of_error hpc, bind_eq_of_error hpc']
      exact .error hd

theorem accept (hT : KeepsKind T) {wanted : TokenKind → Bool} {f f' : Option Token → Parse β}
    (hs : ∀ {token token'}, T token token' → wanted token.kind →
      Related T B (f (some token)) (f' (some token')))
    (hn : Related T B (f none) (f' none)) :
    Related T B (accept wanted >>= f) (Parse.accept wanted >>= f') := by
  have token? : Related T (Option.Rel fun t t' => T t t' ∧ wanted t.kind) (Parse.accept wanted)
      (Parse.accept wanted) := by
    refine ⟨fun {c c'} hc => ?_⟩
    obtain ⟨rest, finish, reported⟩ := c
    obtain ⟨rest', finish', reported'⟩ := c'
    cases hc.rest with
    | nil => exact .ok .none hc
    | @cons token token' rest rest' ht hrest =>
      simp only [Parse.accept, ← hT _ _ ht]
      split
      · next hw =>
        simp only [ne_eq, Bool.and_eq_true, decide_eq_true_eq] at hw
        exact .ok (.some ⟨ht, hw.2⟩) ⟨hrest, hc.finish, hc.reported⟩
      · exact .ok .none hc
  refine token?.bind fun h => ?_
  cases h with
  | none => exact hn
  | some h => exact hs h.1 h.2

/-- A token of a kind. -/
theorem expect (hT : KeepsKind T) (kind : TokenKind) (message : String) :
    Related T (fun t t' => T t t' ∧ t.kind = kind) (expect kind message)
      (Parse.expect kind message) :=
  accept hT (fun ht hk => pure ⟨ht, by simpa using hk⟩) (fail message)

theorem discard (h : Related T A p p') : Related T Eq (discard p) (Functor.discard p') :=
  h.bind fun _ => pure rfl

theorem check (hT : KeepsKind T) (kind : TokenKind) : Related T Eq (check kind) (Parse.check kind) := by
  refine ⟨fun {c c'} hc => ?_⟩
  simp only [Parse.check, Cursor.atEnd, hT _ _ hc.peek]
  exact .ok rfl hc

theorem atEnd (hT : KeepsKind T) : Related T Eq atEnd Parse.atEnd := by
  refine ⟨fun {c c'} hc => ?_⟩
  simp only [Parse.atEnd, Cursor.atEnd, hT _ _ hc.peek]
  exact .ok rfl hc

theorem repeatWhile {σ : Type} {S : σ → σ → Prop} {step step' : σ → Parse (Option σ)}
    (h : ∀ {s s'}, S s s' → Related T (Option.Rel S) (step s) (step' s')) {s s' : σ} (hs : S s s') :
    Related T S (repeatWhile step s) (Parse.repeatWhile step' s') := by
  have remaining : Related T Eq Parse.remaining Parse.remaining := by
    refine ⟨fun {c c'} hc => ?_⟩
    simp only [Parse.remaining, hc.rest.length_eq]
    exact .ok rfl hc
  refine remaining.bind fun {fuel _} hfuel => ?_
  cases hfuel
  induction fuel generalizing s s' with
  | zero => exact pure hs
  | succ fuel ih =>
    refine (h hs).bind fun hnext => ?_
    cases hnext with
    | none => exact pure hs
    | some hnext => exact ih hnext

theorem items (hT : KeepsKind T) {item item' : Parse α} (h : Related T A item item')
    (closing : TokenKind) (crowded : Option String) :
    Related T (List.Forall₂ A) (items closing crowded item) (Parse.items closing crowded item') := by
  have crowd : ∀ n, Related T Eq (complainIfCrowded crowded n) (complainIfCrowded crowded n) := by
    intro n
    unfold complainIfCrowded
    split
    · split
      · exact ⟨fun hc => .ok rfl (hc.report hc.peek _)⟩
      · exact pure rfl
    · exact pure rfl
  have after : ∀ {done done'}, List.Forall₂ A done done' →
      Related T (List.Forall₂ A) (itemAfter crowded item done) (itemAfter crowded item' done') := by
    intro done done' hd
    unfold itemAfter
    rw [← hd.length_eq]
    exact (crowd _).bind fun _ => h.bind fun ha => pure (.cons ha hd)
  refine (check hT closing).bind fun {empty _} he => ?_
  cases he
  split
  · exact pure .nil
  · refine (after .nil).bind fun hfirst => bind (repeatWhile (fun hd => ?_) hfirst) fun hdone =>
      pure (List.rel_reverse hdone)
    exact accept hT (fun _ _ => (after hd).bind fun hd' => pure (.some hd')) (pure .none)

theorem recovering {N : Node → Node → Prop} (hT : KeepsKind T) {p p' : Parse Node}
    (h : Related T N p p') : Related T (Option.Rel N) (recovering p) (Parse.recovering p') := by
  refine ⟨fun {c c'} hc => ?_⟩
  unfold Parse.recovering
  have hr := h.agrees hc
  generalize p c = r at hr
  generalize p' c' = r' at hr
  cases hr with
  | ok hn hd => exact .ok (.some hn) hd
  | @error e d d' hd =>
    cases e with
    | syntaxError => exact .ok .none (hd.synchronize hT)
    | tooDeep => exact .ok .none ((hd.report hd.peek _).synchronize hT)

end Related

/-! ## How trees are built -/

/-- A part that may be missing. -/
def Maybe (N : Node → Node → Prop) (node node' : Node) : Prop :=
  (node = .absent ∧ node' = .absent) ∨ N node node'

/-- Relations between expressions and between statements that go along with every way in which the
parser builds them from tokens that match. -/
structure Respects (T : Token → Token → Prop) (E S : Node → Node → Prop) : Prop where
  kind : KeepsKind T
  truth : ∀ b, E (.literal (.bool b)) (.literal (.bool b))
  nothing : E (.literal .null) (.literal .null)
  constant : ∀ {token token'}, T token token' → E (.literal token.literal) (.literal token'.literal)
  reference : ∀ {name name'}, T name name' → name.kind = .identifier →
    E (.variable name) (.variable name')
  grouping : ∀ {inner inner'}, E inner inner' → E (.grouping inner) (.grouping inner')
  array : ∀ {bracket bracket' elements elements'}, T bracket bracket' →
    List.Forall₂ E elements elements' →
    E (.array bracket (.sequence elements)) (.array bracket' (.sequence elements'))
  call : ∀ {callee callee' paren paren' arguments arguments'}, E callee callee' → T paren paren' →
    paren.kind = .rightParen → List.Forall₂ E arguments arguments' →
    E (.call callee paren (.sequence arguments)) (.call callee' paren' (.sequence arguments'))
  indexGet : ∀ {target target' bracket bracket' index index'}, E target target' →
    T bracket bracket' → E index index' →
    E (.indexGet target bracket index) (.indexGet target' bracket' index')
  sign : ∀ {operator operator' right right'}, T operator operator' →
    (operator.kind = .bang ∨ operator.kind = .minus) → E right right' →
    E (.unary operator right) (.unary operator' right')
  operator : ∀ {level : Level} {operator operator' left left' right right'}, T operator operator' →
    level.has operator.kind → E left left' → E right right' →
    E (level.node left operator right) (level.node left' operator' right')
  assign : ∀ {target target' equals equals' value value'}, E target target' → T equals equals' →
    E value value' → Related T E (assignTo target equals value) (assignTo target' equals' value')
  simple : ∀ {inner inner'}, E inner inner' → S (.expression inner) (.expression inner')
  print : ∀ {inner inner'}, E inner inner' → S (.print inner) (.print inner')
  var : ∀ {name name' value value'}, T name name' → name.kind = .identifier →
    Maybe E value value' →
    S (.var name value) (.var name' value')
  block : ∀ {body body'}, List.Forall₂ S body body' →
    S (.block (.sequence body)) (.block (.sequence body'))
  conditional : ∀ {condition condition' thenBranch thenBranch' elseBranch elseBranch'},
    E condition condition' → S thenBranch thenBranch' → Maybe S elseBranch elseBranch' →
    S (.ifElse condition thenBranch elseBranch) (.ifElse condition' thenBranch' elseBranch')
  whileLoop : ∀ {condition condition' body body'}, E condition condition' → S body body' →
    S (.whileLoop condition body) (.whileLoop condition' body')
  function : ∀ {name name' params params' body body'}, T name name' → name.kind = .identifier →
    List.Forall₂ (fun t t' => T t t' ∧ t.kind = .identifier) params params' →
    List.Forall₂ S body body' →
    S (.function name params (.sequence body)) (.function name' params' (.sequence body'))
  giveBack : ∀ {keyword keyword' value value'}, T keyword keyword' → Maybe E value value' →
    S (.giveBack keyword value) (.giveBack keyword' value')

namespace Related

variable {E S : Node → Node → Prop} (h : Respects T E S)

include h

theorem optional {N : Node → Node → Prop} {kind : TokenKind} {rule rule' : Parse Node}
    (hr : Related T N rule rule') :
    Related T (Maybe N) (optional kind rule) (Parse.optional kind rule') :=
  accept h.kind (fun _ _ => hr.mono fun _ _ => .inr) (pure (.inl ⟨rfl, rfl⟩))

/-! ## Rules of expressions -/

theorem anotherOperator {operand operand' : Parse Node} (hr : Related T E operand operand')
    (level : Level) {left left' : Node} (hl : E left left') :
    Related T (Option.Rel E) (anotherOperator level operand left)
      (Parse.anotherOperator level operand' left') :=
  accept h.kind (fun ho hk => hr.bind fun hn => pure (.some (h.operator ho hk hl hn))) (pure .none)

theorem anotherSuffix {argument argument' index index' : Parse Node}
    (ha : Related T E argument argument') (hi : Related T E index index') {target target' : Node}
    (ht : E target target') :
    Related T (Option.Rel E) (anotherSuffix argument index target)
      (Parse.anotherSuffix argument' index' target') := by
  refine accept h.kind (fun {opening opening'} ho _ => ?_) (pure .none)
  dsimp only
  rw [h.kind _ _ ho]
  split
  · exact bind (bind (items h.kind ha _ _) fun has => bind (expect h.kind _ _) fun hp =>
      pure (h.call ht hp.1 hp.2 has)) fun hn => pure (.some hn)
  · exact bind (hi.bind fun hn => bind (discard (expect h.kind _ _)) fun _ =>
      pure (h.indexGet ht ho hn)) fun hn => pure (.some hn)

theorem primaryFrom {inner inner' : Parse Node} (hi : Related T E inner inner') :
    Related T E (primaryFrom inner) (Parse.primaryFrom inner') := by
  refine accept h.kind (fun {token token'} ht _ => ?_) (fail _)
  dsimp only
  rw [h.kind _ _ ht]
  split
  · exact pure (h.truth false)
  · exact pure (h.truth true)
  · exact pure h.nothing
  · next hk => exact pure (h.reference ht ((h.kind _ _ ht).trans hk))
  · exact hi.bind fun hn => bind (discard (expect h.kind _ _)) fun _ => pure (h.grouping hn)
  · exact bind (items h.kind hi _ _) fun hns => bind (discard (expect h.kind _ _)) fun _ =>
      pure (h.array ht hns)
  · exact pure (h.constant ht)

theorem rule (rule : Rule) (depth : Nat) : Related T E (rule.at depth) (rule.at depth) := by
  induction rule, depth using Rule.induction with
  | deep rule depth he => rw [he]; exact tooDeep
  | expression depth ih => exact ih
  | assignment depth left value =>
    exact left.bind fun ht => accept h.kind (fun he _ => value.bind fun hv => h.assign ht he hv)
      (pure ht)
  | operators level depth ih =>
    show Related T E (Parse.operators level (depth + 2)) (Parse.operators level (depth + 2))
    rw [operators_eq]
    exact ih.bind fun hl => repeatWhile (anotherOperator h ih level) hl
  | unary depth right call =>
    exact accept h.kind (fun ho hk => right.bind fun hn => pure (h.sign ho (by simpa using hk) hn)) call
  | suffixed depth target argument index =>
    exact target.bind fun ht => repeatWhile (anotherSuffix h argument index) ht
  | primary depth inner => exact primaryFrom h inner

theorem expression (depth : Nat) :
    Related T E (expression depth) (Parse.expression depth) :=
  rule h .expression depth

/-! ## Rules of statements -/

theorem expressionStatement {inner inner' : Parse Node} (hi : Related T E inner inner') :
    Related T S (expressionStatement inner) (Parse.expressionStatement inner') :=
  hi.bind fun hn => bind (discard (expect h.kind _ _)) fun _ => pure (h.simple hn)

theorem varDeclaration {inner inner' : Parse Node} (hi : Related T E inner inner') :
    Related T S (varDeclaration inner) (Parse.varDeclaration inner') :=
  bind (expect h.kind _ _) fun hname => bind (optional h hi) fun hv =>
    bind (discard (expect h.kind _ _)) fun _ => pure (h.var hname.1 hname.2 hv)

theorem clause {inner inner' : Parse Node} (hi : Related T E inner inner') (closing : TokenKind) :
    Related T (Option.Rel E) (clause closing inner) (Parse.clause closing inner') := by
  refine bind (check h.kind closing) fun {empty _} he => ?_
  cases he
  split
  · exact pure .none
  · exact hi.bind fun hn => pure (.some hn)

theorem initializerClause {inner inner' : Parse Node} (hi : Related T E inner inner') :
    Related T (Option.Rel S) (initializerClause inner) (Parse.initializerClause inner') := by
  refine accept h.kind (fun {token token'} ht _ => ?_)
    (bind (expressionStatement h hi) fun hn => pure (.some hn))
  dsimp only
  rw [h.kind _ _ ht]
  split
  · exact pure .none
  · exact bind (varDeclaration h hi) fun hn => pure (.some hn)

theorem forLoop {initializer initializer' condition condition' increment increment' : Option Node}
    {body body' : Node} (hi : Option.Rel S initializer initializer')
    (hc : Option.Rel E condition condition') (hn : Option.Rel E increment increment')
    (hb : S body body') :
    S (Parse.forLoop initializer condition increment body)
      (Parse.forLoop initializer' condition' increment' body') := by
  have hcondition : E (condition.getD (.literal (.bool true)))
      (condition'.getD (.literal (.bool true))) := by
    cases hc with
    | none => exact h.truth true
    | some hc => exact hc
  have loop : ∀ {body body'}, S body body' → S (Parse.forLoop initializer condition none body)
      (Parse.forLoop initializer' condition' none body') := by
    intro body body' hb
    refine h.block ?_
    cases hi with
    | none => exact .cons (h.whileLoop hcondition hb) .nil
    | some hi => exact .cons hi (.cons (h.whileLoop hcondition hb) .nil)
  cases hn with
  | none => exact loop hb
  | some hn => exact loop (h.block (.cons hb (.cons (h.simple hn) .nil)))

theorem blockRest {declaration declaration' : Parse (Option Node)}
    (hd : Related T (Option.Rel S) declaration declaration') :
    Related T (fun node node' => ∃ body body', node = .sequence body ∧ node' = .sequence body' ∧
      List.Forall₂ S body body') (blockRest declaration) (Parse.blockRest declaration') := by
  have ended : Related T Eq blockEnds blockEnds :=
    bind (check h.kind _) fun he => bind (atEnd h.kind) fun he' => pure (by rw [he, he'])
  refine bind (repeatWhile (S := List.Forall₂ S) (fun {done done'} hdone => ?_) .nil) fun hdone =>
    bind (discard (expect h.kind _ _)) fun _ => pure ⟨_, _, rfl, rfl, List.rel_reverse hdone⟩
  refine ended.bind fun {stop _} he => ?_
  cases he
  split
  · exact pure .none
  · refine hd.bind fun hn => pure (.some ?_)
    cases hn with
    | none => exact hdone
    | some hn => exact .cons hn hdone

theorem functionRest {declaration declaration' : Parse (Option Node)}
    (hd : Related T (Option.Rel S) declaration declaration') :
    Related T S (functionRest declaration) (Parse.functionRest declaration') := by
  refine bind (expect h.kind _ _) fun hname => bind (discard (expect h.kind _ _)) fun _ =>
    bind (items h.kind (expect h.kind _ _) _ _) fun hparams =>
    bind (discard (expect h.kind _ _)) fun _ => bind (discard (expect h.kind _ _)) fun _ =>
    bind (blockRest h hd) fun hbody => ?_
  obtain ⟨body, body', rfl, rfl, hbody⟩ := hbody
  exact pure (h.function hname.1 hname.2 hparams hbody)

theorem statementFrom {initial initial' inner inner' body body' : Parse Node}
    {declaration declaration' : Parse (Option Node)} (hf : Related T E initial initial')
    (hi : Related T E inner inner') (hb : Related T S body body')
    (hd : Related T (Option.Rel S) declaration declaration') :
    Related T S (statementFrom initial inner body declaration)
      (Parse.statementFrom initial' inner' body' declaration') := by
  refine accept h.kind (fun {keyword keyword'} hk _ => ?_) (expressionStatement h hi)
  dsimp only
  rw [h.kind _ _ hk]
  split
  · exact bind (discard (expect h.kind _ _)) fun _ => bind (initializerClause h hf) fun hi' =>
      bind (clause h hi _) fun hc => bind (discard (expect h.kind _ _)) fun _ =>
      bind (clause h hi _) fun hn => bind (discard (expect h.kind _ _)) fun _ =>
      hb.bind fun hbody => pure (forLoop h hi' hc hn hbody)
  · exact bind (discard (expect h.kind _ _)) fun _ => hi.bind fun hc =>
      bind (discard (expect h.kind _ _)) fun _ => hb.bind fun ht => bind (optional h hb) fun he =>
      pure (h.conditional hc ht he)
  · exact hi.bind fun hn => bind (discard (expect h.kind _ _)) fun _ => pure (h.print hn)
  · refine bind (clause h hi _) fun hv => bind (discard (expect h.kind _ _)) fun _ =>
      pure (h.giveBack hk ?_)
    cases hv with
    | none => exact .inl ⟨rfl, rfl⟩
    | some hv => exact .inr hv
  · exact bind (discard (expect h.kind _ _)) fun _ => hi.bind fun hc =>
      bind (discard (expect h.kind _ _)) fun _ => hb.bind fun hbody => pure (h.whileLoop hc hbody)
  · refine bind (blockRest h hd) fun hbody => ?_
    obtain ⟨body, body', rfl, rfl, hbody⟩ := hbody
    exact pure (h.block hbody)

theorem declarationFrom {inner inner' statement statement' : Parse Node}
    {declaration declaration' : Parse (Option Node)} (hi : Related T E inner inner')
    (hs : Related T S statement statement')
    (hd : Related T (Option.Rel S) declaration declaration') :
    Related T S (declarationFrom inner statement declaration)
      (Parse.declarationFrom inner' statement' declaration') := by
  refine accept h.kind (fun {keyword keyword'} hk _ => ?_) hs
  dsimp only
  rw [h.kind _ _ hk]
  split
  · exact functionRest h hd
  · exact varDeclaration h hi

theorem statements (depth : Nat) :
    Related T (Option.Rel S) (declaration depth) (declaration depth) ∧
      Related T S (statement depth) (statement depth) := by
  refine statement_induction
    (P := fun depth => Related T (Option.Rel S) (declaration depth) (declaration depth))
    (Q := fun depth => Related T S (statement depth) (statement depth))
    (fun depth he => ?_) (fun depth he => ?_) (fun depth hs hd => ?_) (fun depth hs hd => ?_) depth
  · rw [he]; exact tooDeep
  · rw [he]; exact tooDeep
  · exact recovering h.kind (declarationFrom h (expression h _) hs hd)
  · exact statementFrom h (expression h _) (expression h _) hs hd

theorem program (depth : Nat) :
    Related T (List.Forall₂ S) (program depth) (Parse.program depth) := by
  refine bind (repeatWhile (S := List.Forall₂ S) (fun {done done'} hdone => ?_) .nil) fun hdone =>
    pure (List.rel_reverse hdone)
  refine bind (atEnd h.kind) fun {stop _} he => ?_
  cases he
  split
  · exact pure .none
  · refine bind (statements h depth).1 fun hn => pure (.some ?_)
    cases hn with
    | none => exact hdone
    | some hn => exact .cons hn hdone

end Related

end Parse

/-- Programs whose tokens match parse to statements that match, and the same is reported of both. -/
theorem parseTokens_related {T : Token → Token → Prop} {E S : Node → Node → Prop}
    (h : Parse.Respects T E S) (limits : Limits) {tokens tokens' : List Token}
    (ht : List.Forall₂ T tokens tokens') {finish finish' : Token} (hf : T finish finish') :
    List.Forall₂ S (parseTokens limits tokens finish).statements
        (parseTokens limits tokens' finish').statements ∧
      List.Forall₂ (Diagnostic.Matches T) (parseTokens limits tokens finish).diagnostics
        (parseTokens limits tokens' finish').diagnostics := by
  unfold parseTokens
  have start : Cursor.Matches T ⟨tokens, finish, []⟩ ⟨tokens', finish', []⟩ := ⟨ht, hf, .nil⟩
  have hr := (Parse.Related.program h limits.parsing).agrees start
  generalize Parse.program limits.parsing ⟨tokens, finish, []⟩ = r at hr
  generalize Parse.program limits.parsing ⟨tokens', finish', []⟩ = r' at hr
  cases hr with
  | ok hs hd => exact ⟨hs, hd.reported⟩
  | error hd => exact ⟨.nil, (hd.report hd.peek _).reported⟩

/-! ## Trees that match -/

/-- A part that may be missing matches if it is missing on both sides or there on both. -/
theorem Node.Matches.maybe {N T : Token → Token → Prop} {node node' : Node}
    (h : Parse.Maybe (Node.Matches N T) node node') : Node.Matches N T node node' := by
  rcases h with ⟨rfl, rfl⟩ | h
  · exact .absent
  · exact h

/-- Assignments to targets that match. -/
theorem Parse.Related.assignTo {N T : Token → Token → Prop}
    {target target' equals equals' value value'} (ht : Node.Matches N T target target')
    (he : T equals equals') (hv : Node.Matches N T value value') :
    Parse.Related T (Node.Matches N T) (Parse.assignTo target equals value)
      (Parse.assignTo target' equals' value') := by
  have complains {target target' : Node} (ht : Node.Matches N T target target') :=
    (Parse.Related.complain he "Invalid assignment target.").bind fun _ =>
      Parse.Related.pure (T := T) ht
  cases ht with
  | reference hn => exact .pure (.assign hn hv)
  | indexGet ht hb hi => exact .pure (.indexSet ht hb hi hv)
  | _ => exact complains (by constructor <;> assumption)

/-- Matching goes along with how the parser builds trees, if matching tokens have the same kind and
the same literal and matching identifiers match as names. -/
theorem Node.Matches.respects {N T : Token → Token → Prop} (hk : KeepsKind T)
    (hl : ∀ token token', T token token' → token.literal = token'.literal)
    (hn : ∀ name name', T name name' → name.kind = .identifier → N name name') :
    Parse.Respects T (Node.Matches N T) (Node.Matches N T) where
  kind := hk
  truth _ := .literal
  nothing := .literal
  constant ht := by
    rw [hl _ _ ht]
    exact .literal
  reference ht hi := .reference (hn _ _ ht hi)
  grouping := .grouping
  array hb hs := .array hb (.sequence hs)
  call hc hp _ hs := .call hc hp (.sequence hs)
  indexGet := .indexGet
  sign ho _ hr := .unary ho hr
  operator {level _ _ _ _ _ _} ho _ hl hr := by
    cases level
    case or | and => exact .logical hl ho hr
    all_goals exact .binary hl ho hr
  assign := Parse.Related.assignTo
  simple := .expression
  print := .print
  var ht hi hv := .var (hn _ _ ht hi) (.maybe hv)
  block hb := .block (.sequence hb)
  conditional hc ht he := .ifElse hc ht (.maybe he)
  whileLoop := .whileLoop
  function ht hi hp hb :=
    .function (hn _ _ ht hi) (hp.imp fun _ _ h => hn _ _ h.1 h.2) (.sequence hb)
  giveBack hk hv := .giveBack hk (.maybe hv)

end GameScript
