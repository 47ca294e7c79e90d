import GameScript.Proofs.Steps
import GameScript.Tree.Parser

/-! # How the rules of the parser move through the tokens

A rule only drops tokens from the front, keeps the end and adds to what was reported; one that stops
for a syntax error has reported it. `Advances` says this together with the least number of tokens
that the rule reads when it ends well. With it every loop of the parser turns out not to depend on
its fuel, so that it can be unrolled by an equation without any. -/

namespace GameScript

/-- A cursor that a rule may come to from another one. -/
structure Cursor.Leads (c c' : Cursor) : Prop where
  rest : c'.rest <:+ c.rest
  finish : c'.finish = c.finish
  reported : c.reported <+: c'.reported

theorem Cursor.Leads.refl (c : Cursor) : c.Leads c :=
  ⟨List.suffix_refl _, rfl, List.prefix_refl _⟩

theorem Cursor.Leads.trans {c c' c'' : Cursor} (h : c.Leads c') (h' : c'.Leads c'') : c.Leads c'' :=
  ⟨h'.rest.trans h.rest, h'.finish.trans h.finish, h.reported.trans h'.reported⟩

theorem Cursor.Leads.report {c c' : Cursor} (h : c.Leads c') (token : Token) (message : String) :
    c.Leads (c'.report token message) :=
  ⟨h.rest, h.finish, h.reported.trans (List.prefix_append _ _)⟩

theorem Cursor.report_ne (c : Cursor) (token : Token) (message : String) :
    (c.report token message).reported ≠ c.reported := by
  simp [Cursor.report]

/-- What was reported once stays reported. -/
theorem Cursor.Leads.reported_ne {c c' c'' : Cursor} (h : c.Leads c') (h' : c'.Leads c'')
    (hne : c'.reported ≠ c.reported) : c''.reported ≠ c.reported := by
  intro he
  have hp := h'.reported
  rw [he] at hp
  exact hne (hp.eq_of_length_le h.reported.length_le)

/-- What is reported after some steps was not there before them. -/
theorem Cursor.Leads.reported_ne_of_later {c c' c'' : Cursor} (h : c.Leads c') (h' : c'.Leads c'')
    (hne : c''.reported ≠ c'.reported) : c''.reported ≠ c.reported := by
  intro he
  have hle := h.reported.length_le
  rw [← he] at hle
  exact hne (h'.reported.eq_of_length_le hle).symm

theorem Cursor.resume_suffix (previous : Token) (ts : List Token) :
    Cursor.resume previous ts <:+ ts := by
  induction ts generalizing previous with
  | nil => exact List.suffix_refl _
  | cons t ts ih =>
    rw [Cursor.resume]
    split
    · exact List.suffix_refl _
    · exact (ih t).trans (List.suffix_cons t ts)

theorem Cursor.leads_synchronize (c : Cursor) : c.Leads c.synchronize := by
  unfold Cursor.synchronize
  split
  · exact .refl c
  · next token ts h =>
    exact ⟨by rw [h]; exact (resume_suffix token ts).trans (List.suffix_cons token ts), rfl,
      List.prefix_refl _⟩

/-- Skipping drops a token if there is one. -/
theorem Cursor.synchronize_length {c : Cursor} (h : c.rest ≠ []) :
    c.synchronize.rest.length < c.rest.length := by
  unfold Cursor.synchronize
  split
  · contradiction
  · next token ts hr =>
    have := (resume_suffix token ts).length_le
    simp only [hr, List.length_cons]
    omega

namespace Parse

variable {α β : Type}

/-- What a rule may do to a cursor, and the least number of tokens that it reads. -/
structure Advances (n : Nat) (p : Parse α) : Prop where
  ok : ∀ {c a c'}, p c = .ok a c' → c.Leads c' ∧ c'.rest.length + n ≤ c.rest.length
  error : ∀ {c e c'}, p c = .error e c' →
    c.Leads c' ∧ (e = .syntaxError → c'.reported ≠ c.reported)

namespace Advances

theorem mono {n m : Nat} {p : Parse α} (h : Advances n p) (hm : m ≤ n) : Advances m p :=
  ⟨fun hr => ⟨(h.ok hr).1, by have := (h.ok hr).2; omega⟩, h.error⟩

theorem pure (a : α) : Advances 0 (pure a : Parse α) :=
  ⟨fun h => by obtain ⟨-, rfl⟩ := pure_ok h; exact ⟨.refl _, by omega⟩, nofun⟩

theorem bind {n m : Nat} {p : Parse α} {f : α → Parse β} (hp : Advances n p)
    (hf : ∀ a, Advances m (f a)) : Advances (n + m) (p >>= f) := by
  constructor
  · intro c b c'' h
    obtain ⟨a, c', h₁, h₂⟩ := bind_ok h
    obtain ⟨l₁, k₁⟩ := hp.ok h₁
    obtain ⟨l₂, k₂⟩ := (hf a).ok h₂
    exact ⟨l₁.trans l₂, by omega⟩
  · intro c e c'' h
    rcases bind_error h with h₁ | ⟨a, c', h₁, h₂⟩
    · exact hp.error h₁
    · have l₁ := (hp.ok h₁).1
      obtain ⟨l₂, k₂⟩ := (hf a).error h₂
      exact ⟨l₁.trans l₂, fun he => l₁.reported_ne_of_later l₂ (k₂ he)⟩

theorem fail {n : Nat} (message : String) : Advances n (fail message : Parse α) :=
  ⟨nofun, fun h => by
    cases h
    exact ⟨(Cursor.Leads.refl _).report _ _, fun _ => Cursor.report_ne _ _ _⟩⟩

theorem tooDeep {n : Nat} : Advances n (tooDeep : Parse α) :=
  ⟨nofun, fun h => by cases h; exact ⟨.refl _, by simp⟩⟩

theorem complain (token : Token) (message : String) : Advances 0 (complain token message) :=
  ⟨fun h => by cases h; exact ⟨(Cursor.Leads.refl _).report _ _, by simp [Cursor.report]⟩, nofun⟩

theorem complainHere (message : String) : Advances 0 (complainHere message) :=
  ⟨fun h => by cases h; exact ⟨(Cursor.Leads.refl _).report _ _, by simp [Cursor.report]⟩, nofun⟩

theorem check (kind : TokenKind) : Advances 0 (check kind) :=
  ⟨fun h => by cases h; exact ⟨.refl _, by omega⟩, nofun⟩

theorem atEnd : Advances 0 atEnd :=
  ⟨fun h => by cases h; exact ⟨.refl _, by omega⟩, nofun⟩

theorem remaining : Advances 0 remaining :=
  ⟨fun h => by cases h; exact ⟨.refl _, by omega⟩, nofun⟩

end Advances

/-! ## Reading a token -/

theorem accept_some {wanted : TokenKind → Bool} {c c' : Cursor} {token : Token}
    (h : accept wanted c = .ok (some token) c') :
    c.rest = token :: c'.rest ∧ token.kind ≠ .eof ∧ wanted token.kind ∧ c' = c.advance := by
  unfold accept at h
  split at h
  · cases h
  · next t ts hr =>
    split at h
    · next hw =>
      cases h
      simp only [ne_eq, Bool.and_eq_true, decide_eq_true_eq] at hw
      exact ⟨by simp [Cursor.advance, hr], hw.1, hw.2, rfl⟩
    · cases h

theorem accept_none {wanted : TokenKind → Bool} {c c' : Cursor} (h : accept wanted c = .ok none c') :
    c' = c ∧ ∀ token ∈ c.rest.head?, token.kind ≠ .eof → ¬ wanted token.kind := by
  unfold accept at h
  split at h
  · next hr => cases h; simp [hr]
  · next t ts hr =>
    split at h
    · cases h
    · next hw => cases h; simpa [hr] using hw

theorem accept_ne_error {wanted : TokenKind → Bool} {c c' : Cursor} {e : Interrupt} :
    accept wanted c ≠ .error e c' := by
  unfold accept
  split
  · nofun
  · split <;> nofun

/-- A choice by the next token reads it, or goes another way. -/
theorem Advances.accept {n m : Nat} {wanted : TokenKind → Bool} {f : Option Token → Parse β}
    (hs : ∀ token, wanted token.kind → Advances n (f (some token))) (hn : Advances m (f none))
    (hm : m ≤ n + 1) : Advances m (accept wanted >>= f) := by
  constructor
  · intro c b c'' h
    obtain ⟨t?, c', h₁, h₂⟩ := bind_ok h
    cases t? with
    | none =>
      obtain ⟨rfl, -⟩ := accept_none h₁
      exact hn.ok h₂
    | some token =>
      obtain ⟨hr, -, hw, rfl⟩ := accept_some h₁
      obtain ⟨l, k⟩ := (hs token hw).ok h₂
      have la : c.Leads c.advance := ⟨List.tail_suffix _, rfl, List.prefix_refl _⟩
      refine ⟨la.trans l, ?_⟩
      rw [hr, List.length_cons]
      omega
  · intro c e c'' h
    rcases bind_error h with h₁ | ⟨t?, c', h₁, h₂⟩
    · exact absurd h₁ accept_ne_error
    · cases t? with
      | none =>
        obtain ⟨rfl, -⟩ := accept_none h₁
        exact hn.error h₂
      | some token =>
        obtain ⟨-, -, hw, rfl⟩ := accept_some h₁
        obtain ⟨l, k⟩ := (hs token hw).error h₂
        have la : c.Leads c.advance := ⟨List.tail_suffix _, rfl, List.prefix_refl _⟩
        exact ⟨la.trans l, k⟩

theorem Advances.expect (kind : TokenKind) (message : String) : Advances 1 (expect kind message) :=
  .accept (n := 0) (fun token _ => .pure token) (.fail message) (by omega)

theorem Advances.discard {n : Nat} {p : Parse α} (h : Advances n p) : Advances n (discard p) :=
  h.bind (m := 0) fun _ => .pure ()

theorem Advances.optional {kind : TokenKind} {rule : Parse Node} (h : Advances 0 rule) :
    Advances 0 (optional kind rule) :=
  .accept (n := 0) (fun _ _ => h) (.pure _) (by omega)

/-! ## Loops -/

/-- A step of a loop: a round that gives a new state has read a token. -/
structure Proceeds {σ : Type} (step : σ → Parse (Option σ)) : Prop where
  advances : ∀ state, Advances 0 (step state)
  reads : ∀ {state c next c'}, c.finish.kind = .eof → step state c = .ok (some next) c' →
    c'.rest.length < c.rest.length
  ends : ∀ {state c}, c.finish.kind = .eof → c.rest = [] → step state c = .ok none c

variable {σ : Type} {step : σ → Parse (Option σ)}

theorem Advances.repeatWithin (h : ∀ state, Advances 0 (step state)) (fuel : Nat) :
    ∀ state, Advances 0 (repeatWithin step fuel state) := by
  induction fuel with
  | zero => exact fun state => .pure state
  | succ fuel ih =>
    intro state
    refine (h state).bind (m := 0) fun next => ?_
    cases next with
    | none => exact .pure state
    | some next => exact ih next

theorem Advances.repeatWhile (h : ∀ state, Advances 0 (step state)) (state : σ) :
    Advances 0 (repeatWhile step state) :=
  Advances.remaining.bind (m := 0) fun fuel => .repeatWithin h fuel state

/-- The tokens left are fuel enough. -/
theorem repeatWithin_fuel (h : Proceeds step) {fuel fuel' : Nat} {state : σ} {c : Cursor}
    (hc : c.finish.kind = .eof) (hf : c.rest.length ≤ fuel) (hf' : c.rest.length ≤ fuel') :
    repeatWithin step fuel state c = repeatWithin step fuel' state c := by
  have ended : ∀ (n : Nat) (s : σ) (c : Cursor), c.finish.kind = .eof → c.rest = [] →
      repeatWithin step n s c = .ok s c := by
    intro n s c hc hr
    cases n with
    | zero => rfl
    | succ n => rw [repeatWithin, bind_eq_of_ok (h.ends hc hr)]; rfl
  induction fuel generalizing fuel' state c with
  | zero =>
    have hr : c.rest = [] := by simpa using hf
    rw [ended 0 state c hc hr, ended fuel' state c hc hr]
  | succ fuel ih =>
    cases fuel' with
    | zero =>
      have hr : c.rest = [] := by simpa using hf'
      rw [ended _ state c hc hr, ended 0 state c hc hr]
    | succ fuel' =>
      rw [repeatWithin, repeatWithin]
      cases hs : step state c with
      | error e c' => rw [bind_eq_of_error hs, bind_eq_of_error hs]
      | ok next c' =>
        rw [bind_eq_of_ok hs, bind_eq_of_ok hs]
        cases next with
        | none => rfl
        | some next =>
          have hlt := h.reads hc hs
          have hl := ((h.advances state).ok hs).1
          exact ih (by rw [hl.finish]; exact hc) (by omega) (by omega)

/-- A loop is its step and then the loop again. -/
theorem repeatWhile_eq (h : Proceeds step) (state : σ) {c : Cursor} (hc : c.finish.kind = .eof) :
    repeatWhile step state c =
      (step state >>= fun next => match next with
        | some next => repeatWhile step next
        | none => pure state) c := by
  have unfolded : ∀ (s : σ) (c : Cursor), repeatWhile step s c = repeatWithin step c.rest.length s c :=
    fun _ _ => rfl
  rw [unfolded, repeatWithin_fuel h hc (Nat.le_refl _) (Nat.le_succ _), repeatWithin]
  cases hs : step state c with
  | error e c' => rw [bind_eq_of_error hs, bind_eq_of_error hs]
  | ok next c' =>
    rw [bind_eq_of_ok hs, bind_eq_of_ok hs]
    cases next with
    | none => rfl
    | some next =>
      have hlt := h.reads hc hs
      have hl := ((h.advances state).ok hs).1
      exact repeatWithin_fuel h (by rw [hl.finish]; exact hc) (by omega) (Nat.le_refl _)

/-- A loop without a bound on its rounds, and what it comes to. -/
inductive Repeats {σ : Type} (step : σ → Parse (Option σ)) :
    σ → Cursor → EStateM.Result Interrupt Cursor σ → Prop
  | ends {state : σ} {c c' : Cursor} : step state c = .ok none c' → Repeats step state c (.ok state c')
  | stops {state : σ} {c c' : Cursor} {e : Interrupt} :
      step state c = .error e c' → Repeats step state c (.error e c')
  | again {state next : σ} {c c' : Cursor} {result : EStateM.Result Interrupt Cursor σ} :
      step state c = .ok (some next) c' → Repeats step next c' result → Repeats step state c result

/-- The rounds come to an end by themselves, as each reads a token. -/
theorem Proceeds.repeats {σ : Type} {step : σ → Parse (Option σ)} (h : Proceeds step) (state : σ)
    {c : Cursor} (hc : c.finish.kind = .eof) : Repeats step state c (repeatWhile step state c) := by
  generalize hn : c.rest.length = n
  induction n using Nat.strongRecOn generalizing state c with
  | _ n ih =>
    rw [repeatWhile_eq h state hc]
    cases hs : step state c with
    | error e c' =>
      rw [bind_eq_of_error hs]
      exact .stops hs
    | ok next c' =>
      rw [bind_eq_of_ok hs]
      cases next with
      | none => exact .ends hs
      | some next =>
        have hl := ((h.advances state).ok hs).1
        exact .again hs (ih _ (hn ▸ h.reads hc hs) next (hl.finish ▸ hc) rfl)

theorem Repeats.leads {state : σ} {c : Cursor} {result : EStateM.Result Interrupt Cursor σ}
    (h : Repeats step state c result) (hs : ∀ state, Advances 0 (step state)) {state' : σ} {c' : Cursor}
    (hr : result = .ok state' c') : c.Leads c' := by
  induction h with
  | ends hround =>
    cases hr
    exact ((hs _).ok hround).1
  | stops => cases hr
  | again hround _ ih => exact ((hs _).ok hround).1.trans (ih hr)

/-- A loop ends with a round that gives no new state. -/
theorem Repeats.last {state : σ} {c : Cursor} {result : EStateM.Result Interrupt Cursor σ}
    (h : Repeats step state c result) {state' : σ} {c' : Cursor} (hr : result = .ok state' c') :
    ∃ c₀, step state' c₀ = .ok none c' := by
  induction h with
  | @ends state c _ hs =>
    cases hr
    exact ⟨c, hs⟩
  | stops => cases hr
  | again _ _ ih => exact ih hr

/-- A loop that goes on as long as the next token is wanted. -/
theorem Proceeds.accept {wanted : TokenKind → Bool} {f : σ → Option Token → Parse (Option σ)}
    (hs : ∀ state token, wanted token.kind → Advances 0 (f state (some token)))
    (hn : ∀ state, f state none = pure none) :
    Proceeds fun state => accept wanted >>= f state := by
  refine ⟨fun state => .accept (n := 0) (hs state) (hn state ▸ .pure none) (by omega), ?_, ?_⟩
  · intro state c next c' _ h
    obtain ⟨t?, c₁, h₁, h₂⟩ := bind_ok h
    cases t? with
    | none => rw [hn] at h₂; cases h₂
    | some token =>
      obtain ⟨hr, -, hw, rfl⟩ := accept_some h₁
      have := ((hs state token hw).ok h₂).2
      rw [hr, List.length_cons]
      omega
  · intro state c _ hr
    have ha : Parse.accept wanted c = .ok none c := by unfold Parse.accept; rw [hr]
    rw [bind_eq_of_ok ha, hn]
    rfl

/-! ## Rules of expressions -/

theorem Advances.complainIfCrowded (crowded : Option String) (before : Nat) :
    Advances 0 (complainIfCrowded crowded before) := by
  unfold Parse.complainIfCrowded
  split
  · split
    · exact .complainHere _
    · exact .pure ()
  · exact .pure ()

theorem Advances.itemAfter {n : Nat} {item : Parse α} (h : Advances n item) (crowded : Option String)
    (done : List α) : Advances n (itemAfter crowded item done) := by
  have := (complainIfCrowded crowded done.length).bind (m := n + 0) fun _ =>
    h.bind (m := 0) fun next => .pure (next :: done)
  exact this.mono (by omega)

theorem Proceeds.anotherItem {item : Parse α} (h : Advances 0 item) (crowded : Option String) :
    Proceeds (anotherItem crowded item) :=
  .accept (fun done _ _ => (h.itemAfter crowded done).bind (m := 0) fun _ => .pure _) fun _ => rfl

theorem Advances.items {item : Parse α} (h : Advances 0 item) (closing : TokenKind)
    (crowded : Option String) : Advances 0 (items closing crowded item) := by
  refine (check closing).bind (m := 0) fun empty => ?_
  split
  · exact .pure []
  · exact (h.itemAfter crowded []).bind (m := 0) fun first =>
      (repeatWhile (Proceeds.anotherItem h crowded).advances first).bind (m := 0) fun _ => .pure _

theorem Advances.callRest {inner : Parse Node} (h : Advances 0 inner) (callee : Node) :
    Advances 1 (callRest inner callee) :=
  (h.items _ _).bind (m := 1) fun _ => (expect _ _).bind (m := 0) fun _ => .pure _

theorem Advances.indexRest {inner : Parse Node} (h : Advances 0 inner) (target : Node)
    (bracket : Token) : Advances 1 (indexRest inner target bracket) :=
  h.bind (m := 1) fun _ => (expect _ _).discard.bind (m := 0) fun _ => .pure _

theorem Proceeds.anotherOperator {operand : Parse Node} (h : Advances 0 operand) (level : Level) :
    Proceeds (anotherOperator level operand) :=
  .accept (fun _ _ _ => h.bind (m := 0) fun _ => .pure _) fun _ => rfl

theorem Proceeds.anotherSuffix {argument index : Parse Node} (ha : Advances 0 argument)
    (hi : Advances 0 index) : Proceeds (anotherSuffix argument index) := by
  refine .accept (fun target opening _ => ?_) fun _ => rfl
  dsimp only
  split
  · exact ((ha.callRest target).bind (m := 0) fun _ => .pure _).mono (by omega)
  · exact ((hi.indexRest target opening).bind (m := 0) fun _ => .pure _).mono (by omega)

theorem Advances.groupingRest {inner : Parse Node} (h : Advances 0 inner) :
    Advances 1 (groupingRest inner) :=
  h.bind (m := 1) fun _ => (expect _ _).discard.bind (m := 0) fun _ => .pure _

theorem Advances.arrayRest {inner : Parse Node} (h : Advances 0 inner) (bracket : Token) :
    Advances 1 (arrayRest inner bracket) :=
  (h.items _ _).bind (m := 1) fun _ => (expect _ _).discard.bind (m := 0) fun _ => .pure _

theorem Advances.primaryFrom {inner : Parse Node} (h : Advances 0 inner) :
    Advances 1 (primaryFrom inner) := by
  refine .accept (n := 0) (fun token _ => ?_) (.fail _) (by omega)
  dsimp only
  split
  all_goals first
    | exact .pure _
    | exact h.groupingRest.mono (by omega)
    | exact (h.arrayRest token).mono (by omega)

theorem Advances.assignTo (target : Node) (equals : Token) (value : Node) :
    Advances 0 (assignTo target equals value) := by
  unfold Parse.assignTo
  split
  · exact .pure _
  · exact .pure _
  · exact (complain _ _).bind (m := 0) fun _ => .pure _

/-- The rules of expressions. -/
inductive Rule where
  | expression | assignment | operators (level : Level) | unary | suffixed | primary

/-- A rule with the steps that may be open below it. -/
def Rule.at : Rule → Nat → Parse Node
  | .expression => Parse.expression
  | .assignment => Parse.assignment
  | .operators level => Parse.operators level
  | .unary => Parse.unary
  | .suffixed => Parse.suffixed
  | .primary => Parse.primary

/-- The rule for the operands of a level. -/
def Rule.operand : Level → Rule
  | .or => .operators .and
  | .and => .operators .equality
  | .equality => .operators .comparison
  | .comparison => .operators .term
  | .term => .operators .factor
  | .factor => .unary

/-- The steps that a level leaves to its operands, beside those that it always takes. -/
def Rule.spare : Level → Nat
  | .or | .and => 1
  | _ => 0

theorem operators_eq (level : Level) (depth : Nat) :
    operators level (depth + 2) = (do
      let left ← (Rule.operand level).at (depth + Rule.spare level)
      repeatWhile (anotherOperator level ((Rule.operand level).at (depth + Rule.spare level))) left) := by
  cases level <;> rfl

/-- What holds of every rule that gives up at once, and of a rule whenever it holds of those that it
calls, holds of all rules at all depths. -/
theorem Rule.induction {P : Rule → Nat → Prop} (deep : ∀ rule depth, rule.at depth = tooDeep → P rule depth)
    (expression : ∀ depth, P .assignment depth → P .expression (depth + 1))
    (assignment : ∀ depth, P (.operators .or) depth → P .assignment depth →
      P .assignment (depth + 1))
    (operators : ∀ level depth, P (operand level) (depth + spare level) →
      P (.operators level) (depth + 2))
    (unary : ∀ depth, P .unary depth → P .suffixed depth → P .unary (depth + 1))
    (suffixed : ∀ depth, P .primary (depth + 1) → P .expression depth → P .expression (depth + 1) →
      P .suffixed (depth + 2))
    (primary : ∀ depth, P .expression (depth + 4) → P .primary (depth + 5))
    (rule : Rule) (depth : Nat) : P rule depth := by
  induction depth using Nat.strongRecOn generalizing rule with
  | _ depth ih =>
    cases rule with
    | expression =>
      cases depth with
      | zero => exact deep _ _ rfl
      | succ depth => exact expression depth (ih depth (by omega) _)
    | assignment =>
      cases depth with
      | zero => exact deep _ _ rfl
      | succ depth => exact assignment depth (ih depth (by omega) _) (ih depth (by omega) _)
    | operators level =>
      match depth with
      | 0 | 1 => exact deep _ _ rfl
      | depth + 2 =>
        exact operators level depth (ih _ (by cases level <;> simp only [spare] <;> omega) _)
    | unary =>
      cases depth with
      | zero => exact deep _ _ rfl
      | succ depth => exact unary depth (ih depth (by omega) _) (ih depth (by omega) _)
    | suffixed =>
      match depth with
      | 0 | 1 => exact deep _ _ rfl
      | depth + 2 =>
        exact suffixed depth (ih _ (by omega) _) (ih _ (by omega) _) (ih _ (by omega) _)
    | primary =>
      match depth with
      | 0 | 1 | 2 | 3 | 4 => exact deep _ _ rfl
      | depth + 5 => exact primary depth (ih _ (by omega) _)

theorem Advances.rule (rule : Rule) (depth : Nat) : Advances 1 (rule.at depth) := by
  induction rule, depth using Rule.induction with
  | deep rule depth h => rw [h]; exact .tooDeep
  | expression depth ih => exact ih
  | assignment depth left value =>
    refine left.bind (m := 0) fun node => .accept (n := 0) (fun equals _ => ?_) (.pure node) (by omega)
    exact (value.bind (m := 0) fun v => assignTo node equals v).mono (by omega)
  | operators level depth ih =>
    show Advances 1 (Parse.operators level (depth + 2))
    rw [operators_eq]
    exact ih.bind (m := 0) fun left =>
      .repeatWhile (Proceeds.anotherOperator (ih.mono (by omega)) level).advances left
  | unary depth right call =>
    exact .accept (n := 0) (fun _ _ => (right.bind (m := 0) fun _ => .pure _).mono (by omega)) call
      (by omega)
  | suffixed depth target argument index =>
    exact target.bind (m := 0) fun node => .repeatWhile
      (Proceeds.anotherSuffix (argument.mono (by omega)) (index.mono (by omega))).advances node
  | primary depth inner => exact (inner.mono (by omega)).primaryFrom

/-! ## Rules of statements -/

theorem Advances.expressionStatement {inner : Parse Node} (h : Advances 0 inner) :
    Advances 1 (expressionStatement inner) :=
  h.bind (m := 1) fun _ => (expect _ _).discard.bind (m := 0) fun _ => .pure _

theorem Advances.varDeclaration {inner : Parse Node} (h : Advances 0 inner) :
    Advances 1 (varDeclaration inner) :=
  (expect _ _).bind (m := 0) fun _ => h.optional.bind (m := 0) fun _ =>
    ((expect _ _).discard.bind (m := 0) fun _ => .pure _).mono (by omega)

theorem Advances.clause {inner : Parse Node} (h : Advances 0 inner) (closing : TokenKind) :
    Advances 0 (clause closing inner) := by
  refine (check closing).bind (m := 0) fun empty => ?_
  split
  · exact .pure none
  · exact h.bind (m := 0) fun _ => .pure _

theorem Advances.initializerClause {inner : Parse Node} (h : Advances 0 inner) :
    Advances 0 (initializerClause inner) := by
  refine .accept (n := 0) (fun token _ => ?_) ?_ (by omega)
  · dsimp only
    split
    · exact .pure none
    · exact (h.varDeclaration.bind (m := 0) fun _ => .pure _).mono (by omega)
  · exact (h.expressionStatement.bind (m := 0) fun _ => .pure _).mono (by omega)

theorem Advances.forRest {initial inner body : Parse Node} (hf : Advances 0 initial)
    (hi : Advances 0 inner) (hb : Advances 0 body) : Advances 0 (forRest initial inner body) := by
  refine ((expect _ _).discard.mono (Nat.zero_le 1)).bind (m := 0) fun _ => ?_
  refine hf.initializerClause.bind (m := 0) fun _ => (hi.clause _).bind (m := 0) fun _ => ?_
  refine ((expect _ _).discard.mono (Nat.zero_le 1)).bind (m := 0) fun _ => ?_
  refine (hi.clause _).bind (m := 0) fun _ => ?_
  refine ((expect _ _).discard.mono (Nat.zero_le 1)).bind (m := 0) fun _ => ?_
  exact hb.bind (m := 0) fun _ => .pure _

theorem Advances.ifRest {inner branch : Parse Node} (hi : Advances 0 inner) (hb : Advances 0 branch) :
    Advances 0 (ifRest inner branch) := by
  refine ((expect _ _).discard.mono (Nat.zero_le 1)).bind (m := 0) fun _ => hi.bind (m := 0) fun _ => ?_
  refine ((expect _ _).discard.mono (Nat.zero_le 1)).bind (m := 0) fun _ => hb.bind (m := 0) fun _ => ?_
  exact hb.optional.bind (m := 0) fun _ => .pure _

theorem Advances.whileRest {inner body : Parse Node} (hi : Advances 0 inner) (hb : Advances 0 body) :
    Advances 0 (whileRest inner body) := by
  refine ((expect _ _).discard.mono (Nat.zero_le 1)).bind (m := 0) fun _ => hi.bind (m := 0) fun _ => ?_
  refine ((expect _ _).discard.mono (Nat.zero_le 1)).bind (m := 0) fun _ => ?_
  exact hb.bind (m := 0) fun _ => .pure _

theorem Advances.printRest {inner : Parse Node} (h : Advances 0 inner) : Advances 1 (printRest inner) :=
  h.bind (m := 1) fun _ => (expect _ _).discard.bind (m := 0) fun _ => .pure _

theorem Advances.returnRest {inner : Parse Node} (h : Advances 0 inner) (keyword : Token) :
    Advances 1 (returnRest inner keyword) :=
  (h.clause _).bind (m := 1) fun _ => (expect _ _).discard.bind (m := 0) fun _ => .pure _

theorem Advances.recovering {p : Parse Node} (h : Advances 0 p) : Advances 0 (recovering p) := by
  constructor
  · intro c a c' hr
    unfold Parse.recovering at hr
    split at hr
    · next hp => cases hr; exact h.ok hp
    · next hp =>
      cases hr
      have hl := (h.error hp).1.trans (Cursor.leads_synchronize _)
      exact ⟨hl, hl.rest.length_le⟩
    · next c₁ hp =>
      cases hr
      have hl := ((h.error hp).1.report c₁.peek tooDeepMessage).trans (Cursor.leads_synchronize _)
      exact ⟨hl, hl.rest.length_le⟩
  · intro c e c' hr
    unfold Parse.recovering at hr
    split at hr <;> cases hr

/-- A declaration that is left out has been reported. -/
theorem recovering_none {p : Parse Node} (h : Advances 0 p) {c c' : Cursor}
    (hr : recovering p c = .ok none c') : c'.reported ≠ c.reported := by
  unfold recovering at hr
  split at hr
  · cases hr
  · next hp =>
    cases hr
    obtain ⟨hl, hs⟩ := h.error hp
    exact hl.reported_ne (Cursor.leads_synchronize _) (hs rfl)
  · next c₁ hp =>
    cases hr
    have hl := (h.error hp).1
    have hc : c.reported ≠ (c₁.report c₁.peek tooDeepMessage).reported := by
      intro he
      have := hl.reported.length_le
      simp only [he, Cursor.report, List.length_append, List.length_singleton] at this
      omega
    exact (hl.report _ _).reported_ne (Cursor.leads_synchronize _) hc.symm

/-- A declaration reads a token or more, whether it is kept or left out. -/
theorem recovering_reads {p : Parse Node} (h : Advances 1 p) {c c' : Cursor} {node? : Option Node}
    (hc : c.rest ≠ []) (hr : recovering p c = .ok node? c') : c'.rest.length < c.rest.length := by
  have skipped : ∀ c₁ : Cursor, c₁.rest <:+ c.rest → c₁.synchronize.rest.length < c.rest.length := by
    intro c₁ hs
    by_cases he : c₁.rest = []
    · have := List.length_pos_iff.mpr hc
      have := (Cursor.leads_synchronize c₁).rest.length_le
      simp only [he, List.length_nil] at this
      omega
    · exact Nat.lt_of_lt_of_le (Cursor.synchronize_length he) hs.length_le
  unfold recovering at hr
  split at hr
  · next hp =>
    cases hr
    have := (h.ok hp).2
    omega
  · next hp => cases hr; exact skipped _ (h.error hp).1.rest
  · next hp => cases hr; exact skipped _ ((h.error hp).1.report _ _).rest

/-- A rule for declarations that reads a token or more, unless none is left. -/
structure Declares (declaration : Parse (Option Node)) : Prop where
  advances : Advances 0 declaration
  reads : ∀ {c c' : Cursor} {node? : Option Node}, c.rest ≠ [] → declaration c = .ok node? c' →
    c'.rest.length < c.rest.length

theorem atEnd_of_rest {c : Cursor} (hc : c.finish.kind = .eof) (hr : c.rest = []) :
    c.atEnd = true := by
  simp [Cursor.atEnd, Cursor.peek, hr, hc]

/-- The loop of declarations, whatever sign besides the end of the program ends it. -/
theorem Proceeds.anotherDeclaration {ended : Parse Bool} {declaration : Parse (Option Node)}
    (h : Declares declaration) (closed : Cursor → Bool)
    (he : ∀ c, ended c = .ok (closed c || c.atEnd) c) :
    Proceeds (anotherDeclaration ended declaration) := by
  have advances : Advances 0 ended :=
    ⟨fun {c _ _} hr => by rw [he c] at hr; cases hr; exact ⟨.refl c, Nat.le_refl _⟩,
      fun {c _ _} hr => by rw [he c] at hr; cases hr⟩
  refine ⟨fun done => ?_, ?_, ?_⟩
  · refine advances.bind (m := 0) fun stop => ?_
    split
    · exact .pure none
    · exact h.advances.bind (m := 0) fun _ => .pure _
  · intro done c next c' hc hr
    unfold Parse.anotherDeclaration at hr
    rw [bind_eq_of_ok (he c)] at hr
    split at hr
    · cases hr
    · next hs =>
      obtain ⟨node?, c₁, h₁, h₂⟩ := bind_ok hr
      obtain ⟨-, rfl⟩ := pure_ok h₂
      refine h.reads (fun hn => hs ?_) h₁
      rw [atEnd_of_rest hc hn, Bool.or_true]
  · intro done c hc hr
    unfold Parse.anotherDeclaration
    rw [bind_eq_of_ok (he c), atEnd_of_rest hc hr, Bool.or_true]
    rfl

/-- Does the brace of a block come next? -/
def closes (c : Cursor) : Bool := !c.atEnd && c.peek.kind = .rightBrace

theorem blockEnds_eq (c : Cursor) : blockEnds c = .ok (closes c || c.atEnd) c := rfl

theorem Proceeds.inBlock {declaration : Parse (Option Node)} (h : Declares declaration) :
    Proceeds (Parse.anotherDeclaration blockEnds declaration) :=
  .anotherDeclaration h closes blockEnds_eq

theorem Proceeds.inProgram {declaration : Parse (Option Node)} (h : Declares declaration) :
    Proceeds (Parse.anotherDeclaration atEnd declaration) :=
  .anotherDeclaration h (fun _ => false) fun _ => rfl

theorem Advances.blockRest {declaration : Parse (Option Node)} (h : Declares declaration) :
    Advances 1 (blockRest declaration) :=
  (repeatWhile (Proceeds.inBlock h).advances []).bind (m := 1) fun _ =>
    (expect _ _).discard.bind (m := 0) fun _ => .pure _

theorem Advances.functionRest {declaration : Parse (Option Node)} (h : Declares declaration) :
    Advances 0 (functionRest declaration) := by
  refine ((expect _ _).mono (Nat.zero_le 1)).bind (m := 0) fun _ => ?_
  refine ((expect _ _).discard.mono (Nat.zero_le 1)).bind (m := 0) fun _ => ?_
  refine (((expect _ _).mono (Nat.zero_le 1)).items _ _).bind (m := 0) fun _ => ?_
  refine ((expect _ _).discard.mono (Nat.zero_le 1)).bind (m := 0) fun _ => ?_
  refine ((expect _ _).discard.mono (Nat.zero_le 1)).bind (m := 0) fun _ => ?_
  exact ((blockRest h).mono (Nat.zero_le 1)).bind (m := 0) fun _ => .pure _

theorem Advances.statementFrom {initial inner body : Parse Node} {declaration : Parse (Option Node)}
    (hf : Advances 0 initial) (hi : Advances 0 inner) (hb : Advances 0 body)
    (hd : Declares declaration) : Advances 1 (statementFrom initial inner body declaration) := by
  refine .accept (n := 0) (fun keyword _ => ?_) hi.expressionStatement (by omega)
  dsimp only
  split
  · exact hf.forRest hi hb
  · exact hi.ifRest hb
  · exact hi.printRest.mono (by omega)
  · exact (hi.returnRest keyword).mono (by omega)
  · exact hi.whileRest hb
  · exact ((blockRest hd).bind (m := 0) fun _ => .pure _).mono (by omega)

theorem Advances.declarationFrom {inner statement : Parse Node} {declaration : Parse (Option Node)}
    (hi : Advances 0 inner) (hs : Advances 1 statement) (hd : Declares declaration) :
    Advances 1 (declarationFrom inner statement declaration) := by
  refine .accept (n := 0) (fun keyword _ => ?_) hs (by omega)
  dsimp only
  split
  · exact functionRest hd
  · exact hi.varDeclaration.mono (by omega)

/-- What holds of the rules for declarations and statements that give up at once, and of each whenever
it holds of those that it calls, holds of both at all depths. -/
theorem statement_induction {P Q : Nat → Prop}
    (deep : ∀ depth, declaration depth = tooDeep → P depth)
    (deep' : ∀ depth, statement depth = tooDeep → Q depth)
    (declaration : ∀ depth, Q (depth + 6) → P (depth + 4) → P (depth + 7))
    (statement : ∀ depth, Q (depth + 1) → P (depth + 1) → Q (depth + 3)) (depth : Nat) :
    P depth ∧ Q depth := by
  induction depth using Nat.strongRecOn with
  | _ depth ih =>
    constructor
    · match depth with
      | 0 | 1 | 2 | 3 | 4 | 5 | 6 => exact deep _ rfl
      | depth + 7 => exact declaration depth (ih _ (by omega)).2 (ih _ (by omega)).1
    · match depth with
      | 0 | 1 | 2 => exact deep' _ rfl
      | depth + 3 => exact statement depth (ih _ (by omega)).2 (ih _ (by omega)).1

theorem Advances.expression (depth : Nat) : Advances 1 (expression depth) :=
  .rule .expression depth

theorem advances_statements (depth : Nat) :
    Declares (declaration depth) ∧ Advances 1 (statement depth) := by
  have inner : ∀ depth, Advances 0 (expression depth) := fun depth =>
    (Advances.expression depth).mono (by omega)
  refine statement_induction (P := fun depth => Declares (declaration depth))
    (Q := fun depth => Advances 1 (statement depth)) (fun depth h => ?_) (fun depth h => ?_)
    (fun depth hs hd => ?_) (fun depth hs hd => ?_) depth
  · rw [h]
    exact ⟨.tooDeep, nofun⟩
  · rw [h]
    exact .tooDeep
  · have body := Advances.declarationFrom (inner (depth + 5)) hs hd
    exact ⟨(body.mono (by omega)).recovering, fun hc hr => recovering_reads body hc hr⟩
  · exact .statementFrom (inner depth) (inner (depth + 1)) (hs.mono (by omega)) hd

theorem Declares.declaration (depth : Nat) : Declares (declaration depth) :=
  (advances_statements depth).1

end Parse

end GameScript
