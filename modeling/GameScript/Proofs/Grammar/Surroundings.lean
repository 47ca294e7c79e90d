import GameScript.Proofs.Grammar.Progress

/-! # What stands around the tokens of a rule

A rule does not look at what was reported before it, nor at tokens that it does not come to. So it
does the same at a position of its own and at one that is placed in other surroundings, as long as it
keeps to positions from which the surroundings are not seen. `Carries` says this of a rule, together
with where it leaves the cursor. -/

namespace GameScript

/-- What stands around some tokens: what was reported before them, the tokens after them and the end
of those. -/
structure Surroundings where
  reported : List Diagnostic
  rest : List Token
  finish : Token

/-- A position placed in other surroundings. -/
def Cursor.inside (c : Cursor) (around : Surroundings) : Cursor :=
  ⟨c.rest ++ around.rest, around.finish, around.reported ++ c.reported⟩

theorem Cursor.inside_report (c : Cursor) (around : Surroundings) (token : Token) (message : String) :
    (c.report token message).inside around = (c.inside around).report token message := by
  simp only [inside, report, List.append_assoc]

namespace Parse

variable {α β : Type}

/-- What a rule gives at a position placed in other surroundings. -/
def inside (around : Surroundings) :
    EStateM.Result Interrupt Cursor α → EStateM.Result Interrupt Cursor α
  | .ok a c => .ok a (c.inside around)
  | .error e c => .error e (c.inside around)

/-- Positions from which the surroundings are not seen. They stay such when tokens of some kinds are
read. -/
structure Hides (around : Surroundings) (passes : TokenKind → Prop) (P : Cursor → Prop) : Prop where
  ended : around.finish.kind = .eof
  finish : ∀ {c}, P c → c.finish.kind = .eof
  head : ∀ {c}, P c → (c.rest ++ around.rest).head? = c.rest.head?
  peek : ∀ {c}, P c → (c.inside around).peek = c.peek
  report : ∀ {c}, P c → ∀ token message, P (c.report token message)
  advance : ∀ {c token ts}, P c → c.rest = token :: ts → passes token.kind → P c.advance

/-- A rule that does the same in the surroundings when it starts where `P` holds. It ends where `Q`
holds, and stops where `E` does. -/
structure Carries (around : Surroundings) (E P Q : Cursor → Prop) (p : Parse α) : Prop where
  same : ∀ {c}, P c → p (c.inside around) = inside around (p c)
  ok : ∀ {c a c'}, P c → p c = .ok a c' → Q c'
  error : ∀ {c e c'}, P c → p c = .error e c' → E c'

/-- A rule that keeps to positions of one sort. -/
abbrev Keeps (around : Surroundings) (P : Cursor → Prop) (p : Parse α) : Prop :=
  Carries around P P P p

variable {around : Surroundings} {passes : TokenKind → Prop} {E P Q R : Cursor → Prop}

namespace Carries

theorem pure (a : α) : Carries around E P P (pure a : Parse α) :=
  ⟨fun _ => rfl, fun hc h => by obtain ⟨-, rfl⟩ := pure_ok h; exact hc, fun _ => nofun⟩

/-- A step and what comes after it, which may depend on what the step gave. -/
theorem bindOf {p : Parse α} {f : α → Parse β}
    (same : ∀ {c}, P c → p (c.inside around) = inside around (p c))
    (next : ∀ {c a c'}, P c → p c = .ok a c' → ∃ S, S c' ∧ Carries around E S R (f a))
    (error : ∀ {c e c'}, P c → p c = .error e c' → E c') : Carries around E P R (p >>= f) := by
  refine ⟨fun {c} hc => ?_, fun hc h => ?_, fun hc h => ?_⟩
  · have hsame := same hc
    cases hr : p c with
    | ok a c' =>
      rw [hr] at hsame
      rw [bind_eq_of_ok hsame, bind_eq_of_ok hr]
      obtain ⟨S, hs, hf⟩ := next hc hr
      exact hf.same hs
    | error e c' =>
      rw [hr] at hsame
      rw [bind_eq_of_error hsame, bind_eq_of_error hr]
      rfl
  · obtain ⟨a, c', h₁, h₂⟩ := bind_ok h
    obtain ⟨S, hs, hf⟩ := next hc h₁
    exact hf.ok hs h₂
  · rcases bind_error h with h₁ | ⟨a, c', h₁, h₂⟩
    · exact error hc h₁
    · obtain ⟨S, hs, hf⟩ := next hc h₁
      exact hf.error hs h₂

theorem bind {p : Parse α} {f : α → Parse β} (hp : Carries around E P Q p)
    (hf : ∀ a, Carries around E Q R (f a)) : Carries around E P R (p >>= f) :=
  bindOf hp.same (fun hc hr => ⟨Q, hp.ok hc hr, hf _⟩) hp.error

theorem discard {p : Parse α} (hp : Carries around E P Q p) :
    Carries around E P Q (discard p) := hp.bind fun _ => pure ()

theorem ite {c : Prop} [Decidable c] {p q : Parse α} (hp : Carries around E P Q p)
    (hq : Carries around E P Q q) : Carries around E P Q (if c then p else q) := by
  split
  · exact hp
  · exact hq

/-- A rule that starts where one of several conditions holds. -/
theorem cases {p : Parse α} (h : ∀ {c}, P c → ∃ S, S c ∧ Carries around E S Q p) :
    Carries around E P Q p := by
  refine ⟨fun hc => ?_, fun hc => ?_, fun hc => ?_⟩
  · obtain ⟨S, hs, hp⟩ := h hc
    exact hp.same hs
  · obtain ⟨S, hs, hp⟩ := h hc
    exact hp.ok hs
  · obtain ⟨S, hs, hp⟩ := h hc
    exact hp.error hs

theorem tooDeep : Carries around P P Q (tooDeep : Parse α) :=
  ⟨fun _ => rfl, fun _ => nofun, fun hc h => by cases h; exact hc⟩

end Carries

/-- Where the next token is the same, so is whether it is read. -/
theorem accept_inside (wanted : TokenKind → Bool) {c : Cursor}
    (hhead : (c.rest ++ around.rest).head? = c.rest.head?) :
    accept wanted (c.inside around) = inside around (accept wanted c) := by
  unfold accept
  cases hr : c.rest with
  | nil =>
    rw [hr, List.nil_append, List.head?_nil, List.head?_eq_none_iff] at hhead
    simp only [Cursor.inside, hr, hhead, List.append_nil]
    simp only [inside, Cursor.inside, hr, hhead, List.append_nil]
  | cons token ts =>
    simp only [Cursor.inside, hr, List.cons_append]
    split
    · simp only [inside, Cursor.inside, Cursor.advance, hr, List.tail_cons]
    · simp only [inside, Cursor.inside, hr, List.cons_append]

namespace Hides

variable (h : Hides around passes P)
include h

theorem fail (message : String) : Carries around P P Q (fail message : Parse α) := by
  refine ⟨fun {c} hc => ?_, fun _ => nofun, fun {c _ _} hc he => ?_⟩
  · simp only [Parse.fail, inside, h.peek hc, Cursor.inside_report]
  · cases he
    exact h.report hc _ _

theorem complain (token : Token) (message : String) : Keeps around P (complain token message) := by
  refine ⟨fun {c} hc => ?_, fun {c _ _} hc he => ?_, fun _ => nofun⟩
  · simp only [Parse.complain, inside, Cursor.inside_report]
  · cases he
    exact h.report hc _ _

theorem complainHere (message : String) : Keeps around P (complainHere message) := by
  refine ⟨fun {c} hc => ?_, fun {c _ _} hc he => ?_, fun _ => nofun⟩
  · simp only [Parse.complainHere, inside, h.peek hc, Cursor.inside_report]
  · cases he
    exact h.report hc _ _

theorem check (kind : TokenKind) : Keeps around P (check kind) := by
  refine ⟨fun {c} hc => ?_, fun {c _ _} hc he => ?_, fun _ => nofun⟩
  · simp only [Parse.check, inside, Cursor.atEnd, h.peek hc]
  · cases he
    exact hc

theorem atEnd : Keeps around P atEnd := by
  refine ⟨fun {c} hc => ?_, fun {c _ _} hc he => ?_, fun _ => nofun⟩
  · simp only [Parse.atEnd, inside, Cursor.atEnd, h.peek hc]
  · cases he
    exact hc

theorem accept_same (wanted : TokenKind → Bool) {c : Cursor} (hc : P c) :
    Parse.accept wanted (c.inside around) = inside around (Parse.accept wanted c) :=
  accept_inside wanted (h.head hc)

theorem accept {wanted : TokenKind → Bool} (hw : ∀ {kind}, wanted kind → passes kind)
    {f : Option Token → Parse β}
    (hs : ∀ token, wanted token.kind → Carries around P P Q (f (some token)))
    (hn : Carries around P P Q (f none)) : Carries around P P Q (accept wanted >>= f) := by
  refine .bindOf (h.accept_same wanted) (fun {c token? c'} hc ha => ⟨P, ?_⟩)
    (fun _ ha => absurd ha accept_ne_error)
  cases token? with
  | none =>
    obtain ⟨rfl, -⟩ := accept_none ha
    exact ⟨hc, hn⟩
  | some token =>
    obtain ⟨hr, -, hk, rfl⟩ := accept_some ha
    exact ⟨h.advance hc hr (hw hk), hs token hk⟩

theorem acceptKind {kind : TokenKind} (hk : passes kind) {f : Option Token → Parse β}
    (hs : ∀ token, Carries around P P Q (f (some token))) (hn : Carries around P P Q (f none)) :
    Carries around P P Q (Parse.accept (· = kind) >>= f) := by
  refine h.accept (fun {other} hw => ?_) (fun token _ => hs token) hn
  rw [of_decide_eq_true hw]
  exact hk

theorem expect {kind : TokenKind} (hk : passes kind) (message : String) :
    Keeps around P (expect kind message) :=
  h.acceptKind hk (fun token => .pure token) (h.fail message)

theorem optional {kind : TokenKind} (hk : passes kind) {rule : Parse Node} (hr : Keeps around P rule) :
    Keeps around P (optional kind rule) :=
  h.acceptKind hk (fun _ => hr) (.pure _)

theorem repeatWhile {σ : Type} {step : σ → Parse (Option σ)} (hp : Proceeds step)
    (hs : ∀ state, Keeps around P (step state)) (state : σ) :
    Keeps around P (repeatWhile step state) := by
  -- the rounds are made in the surroundings one by one as they are made alone
  have unrolled {state : σ} {c : Cursor} {result : EStateM.Result Interrupt Cursor σ}
      (rounds : Repeats step state c result) (hc : P c) :
      Parse.repeatWhile step state (c.inside around) = inside around result ∧
        (∀ {last c'}, result = .ok last c' → P c') ∧ ∀ {e c'}, result = .error e c' → P c' := by
    induction rounds with
    | @ends state c c' hr =>
      have hsame := (hs state).same hc
      rw [hr] at hsame
      refine ⟨?_, fun he => ?_, nofun⟩
      · rw [repeatWhile_eq hp state (c := c.inside around) h.ended, bind_eq_of_ok hsame]
        rfl
      · cases he
        exact (hs state).ok hc hr
    | @stops state c c' e hr =>
      have hsame := (hs state).same hc
      rw [hr] at hsame
      refine ⟨?_, nofun, fun he => ?_⟩
      · rw [repeatWhile_eq hp state (c := c.inside around) h.ended, bind_eq_of_error hsame]
        rfl
      · cases he
        exact (hs state).error hc hr
    | @again state next c c' result hr _ ih =>
      have hsame := (hs state).same hc
      rw [hr] at hsame
      rw [repeatWhile_eq hp state (c := c.inside around) h.ended, bind_eq_of_ok hsame]
      exact ih ((hs state).ok hc hr)
  have rounds {c : Cursor} (hc : P c) := hp.repeats state (h.finish hc)
  exact ⟨fun hc => (unrolled (rounds hc) hc).1, fun hc => (unrolled (rounds hc) hc).2.1,
    fun hc => (unrolled (rounds hc) hc).2.2⟩

theorem items {item : Parse α} (ha : Advances 0 item) (hi : Keeps around P item)
    (hcomma : passes .comma) (closing : TokenKind) (crowded : Option String) :
    Keeps around P (items closing crowded item) := by
  have crowd (n : Nat) : Keeps around P (complainIfCrowded crowded n) := by
    unfold complainIfCrowded
    split
    · exact .ite (h.complainHere _) (.pure ())
    · exact .pure ()
  have after (done : List α) : Keeps around P (itemAfter crowded item done) :=
    (crowd done.length).bind fun _ => hi.bind fun _ => .pure _
  refine (h.check closing).bind fun empty => .ite (.pure []) ?_
  refine (after []).bind fun first => ?_
  refine (h.repeatWhile (.anotherItem ha crowded) (fun done => ?_) first).bind fun _ => .pure _
  exact h.acceptKind hcomma (fun _ => (after done).bind fun _ => .pure _) (.pure none)

/-- A rule that stops is skipped in the same way, if skipping does the same. -/
theorem recovering
    (skips : ∀ {c}, P c →
      (c.inside around).synchronize = c.synchronize.inside around ∧ R c.synchronize)
    {p : Parse Node} (hp : Carries around P Q R p) : Carries around E Q R (recovering p) := by
  unfold Parse.recovering
  refine ⟨fun {c} hc => ?_, fun {c node? c'} hc hr => ?_, fun {c e c'} hc hr => ?_⟩
  · rw [hp.same hc]
    cases hr : p c with
    | ok node c' => rfl
    | error e c' =>
      have hc' := hp.error hc hr
      cases e with
      | syntaxError => simp only [inside, (skips hc').1]
      | tooDeep =>
        have hreport := h.report hc' c'.peek tooDeepMessage
        simp only [inside, h.peek hc', ← Cursor.inside_report, (skips hreport).1]
  · split at hr
    · next hok =>
      cases hr
      exact hp.ok hc hok
    · next herror =>
      cases hr
      exact (skips (hp.error hc herror)).2
    · next herror =>
      cases hr
      exact (skips (h.report (hp.error hc herror) _ _)).2
  · split at hr <;> cases hr

end Hides

/-! ## Rules of expressions -/

/-- Expressions read no semicolon. -/
structure Expresses (around : Surroundings) (passes : TokenKind → Prop) (P : Cursor → Prop) : Prop
    extends Hides around passes P where
  passes : ∀ {kind}, kind ≠ .semicolon → passes kind

namespace Expresses

variable (h : Expresses around passes P)
include h

theorem anotherOperator {operand : Parse Node} (ho : Keeps around P operand) (level : Level)
    (left : Node) : Keeps around P (anotherOperator level operand left) := by
  refine h.accept (fun {kind} hw => h.passes ?_) (fun _ _ => ho.bind fun _ => .pure _) (.pure none)
  rintro rfl
  cases level <;> cases hw

theorem anotherSuffix {argument index : Parse Node} (ha : Advances 0 argument)
    (hargument : Keeps around P argument) (hindex : Keeps around P index) (target : Node) :
    Keeps around P (anotherSuffix argument index target) := by
  refine h.accept (fun {kind} hw => h.passes ?_) (fun opening _ => ?_) (.pure none)
  · rintro rfl
    cases hw
  · dsimp only
    split
    · refine Carries.bind ?_ fun _ => .pure _
      refine (h.items ha hargument (h.passes (by decide)) _ _).bind fun _ => ?_
      exact (h.expect (h.passes (by decide)) _).bind fun _ => .pure _
    · refine Carries.bind ?_ fun _ => .pure _
      exact hindex.bind fun _ => (h.expect (h.passes (by decide)) _).discard.bind fun _ => .pure _

theorem primaryFrom {inner : Parse Node} (ha : Advances 0 inner) (hi : Keeps around P inner) :
    Keeps around P (primaryFrom inner) := by
  refine h.accept (fun {kind} hw => h.passes ?_) (fun token _ => ?_) (h.fail _)
  · rintro rfl
    cases hw
  · dsimp only
    split
    · exact .pure _
    · exact .pure _
    · exact .pure _
    · exact .pure _
    · exact hi.bind fun _ => (h.expect (h.passes (by decide)) _).discard.bind fun _ => .pure _
    · refine (h.items ha hi (h.passes (by decide)) _ _).bind fun _ => ?_
      exact (h.expect (h.passes (by decide)) _).discard.bind fun _ => .pure _
    · exact .pure _

theorem assignTo (target : Node) (equals : Token) (value : Node) :
    Keeps around P (assignTo target equals value) := by
  unfold Parse.assignTo
  split
  · exact .pure _
  · exact .pure _
  · exact (h.complain _ _).bind fun _ => .pure _

theorem rule (rule : Rule) (depth : Nat) : Keeps around P (rule.at depth) := by
  have inner (depth : Nat) : Advances 0 (Parse.expression depth) :=
    (Advances.rule .expression depth).mono (by omega)
  induction rule, depth using Rule.induction with
  | deep rule depth he => rw [he]; exact .tooDeep
  | expression depth ih => exact ih
  | assignment depth left value =>
    refine left.bind fun target =>
      h.accept (fun {kind} hw => h.passes ?_) (fun equals _ => ?_) (.pure _)
    · rintro rfl
      cases hw
    · exact value.bind fun v => h.assignTo target equals v
  | operators level depth ih =>
    show Keeps around P (Parse.operators level (depth + 2))
    rw [operators_eq]
    refine ih.bind fun left => h.repeatWhile ?_ (h.anotherOperator ih level) left
    exact .anotherOperator ((Advances.rule _ _).mono (by omega)) level
  | unary depth right call =>
    refine h.accept (fun {kind} hw => h.passes ?_) (fun _ _ => right.bind fun _ => .pure _) call
    rintro rfl
    cases hw
  | suffixed depth target argument index =>
    exact target.bind fun node => h.repeatWhile
      (.anotherSuffix (inner depth) (inner (depth + 1)))
      (h.anotherSuffix (inner depth) argument index) node
  | primary depth ih => exact h.primaryFrom (inner (depth + 4)) ih

theorem expression (depth : Nat) : Keeps around P (expression depth) := h.rule .expression depth

end Expresses

end Parse

end GameScript
