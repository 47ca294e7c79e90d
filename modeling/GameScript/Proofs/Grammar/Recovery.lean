import GameScript.Proofs.Grammar.Exactness
import GameScript.Proofs.Grammar.Surroundings

/-! # Where parsing resumes after an error

A statement without braces ends with its semicolon, whether it is well formed or not: no rule reads
on behind it, and an error inside it is followed by skipping up to it. So what comes after such a
statement is parsed as if it stood alone. -/

namespace GameScript.Parse

/-! ## What was reported before -/

/-- Positions from which the surroundings are never seen, whatever is read or skipped. -/
structure Ignores (around : Surroundings) (P : Cursor → Prop) : Prop
    extends Expresses around (fun _ => True) P where
  synchronize : ∀ {c}, P c →
    (c.inside around).synchronize = c.synchronize.inside around ∧ P c.synchronize

theorem ignores_reported (ds : List Diagnostic) {finish : Token} (hf : finish.kind = .eof) :
    Ignores ⟨ds, [], finish⟩ (·.finish = finish) where
  ended := hf
  finish hc := hc ▸ hf
  head _ := by rw [List.append_nil]
  peek {c} hc := by
    obtain ⟨rest, _, reported⟩ := c
    cases hc
    simp only [Cursor.inside, Cursor.peek, List.append_nil]
  report hc _ _ := hc
  advance hc _ _ := hc
  passes _ := trivial
  synchronize {c} hc := by
    obtain ⟨rest, _, reported⟩ := c
    cases hc
    cases rest with
    | nil => exact ⟨rfl, rfl⟩
    | cons token ts => exact ⟨by simp only [Cursor.synchronize, Cursor.inside, List.append_nil], rfl⟩

namespace Ignores

variable {around : Surroundings} {P : Cursor → Prop} (h : Ignores around P)
include h

theorem expressionStatement {inner : Parse Node} (hi : Keeps around P inner) :
    Keeps around P (expressionStatement inner) :=
  hi.bind fun _ => (h.expect trivial _).discard.bind fun _ => .pure _

theorem varDeclaration {inner : Parse Node} (hi : Keeps around P inner) :
    Keeps around P (varDeclaration inner) := by
  refine (h.expect trivial _).bind fun _ => (h.optional trivial hi).bind fun _ => ?_
  exact (h.expect trivial _).discard.bind fun _ => .pure _

theorem clause {inner : Parse Node} (hi : Keeps around P inner) (closing : TokenKind) :
    Keeps around P (clause closing inner) :=
  (h.check closing).bind fun _ => .ite (.pure none) (hi.bind fun _ => .pure _)

theorem initializerClause {inner : Parse Node} (hi : Keeps around P inner) :
    Keeps around P (initializerClause inner) := by
  refine h.accept (fun _ => trivial) (fun token _ => ?_)
    ((h.expressionStatement hi).bind fun _ => .pure _)
  exact .ite (.pure none) ((h.varDeclaration hi).bind fun _ => .pure _)

theorem blockRest {declaration : Parse (Option Node)} (hd : Declares declaration)
    (hk : Keeps around P declaration) : Keeps around P (blockRest declaration) := by
  have ends : Keeps around P blockEnds :=
    (h.check .rightBrace).bind fun _ => h.atEnd.bind fun _ => .pure _
  refine (h.repeatWhile (.inBlock hd) (fun done => ?_) []).bind fun _ => ?_
  · exact ends.bind fun _ => .ite (.pure none) (hk.bind fun _ => .pure _)
  · exact (h.expect trivial _).discard.bind fun _ => .pure _

theorem statementFrom {initial inner body : Parse Node} {declaration : Parse (Option Node)}
    (hf : Keeps around P initial) (hi : Keeps around P inner) (hb : Keeps around P body)
    (hd : Declares declaration) (hk : Keeps around P declaration) :
    Keeps around P (statementFrom initial inner body declaration) := by
  refine h.accept (fun _ => trivial) (fun keyword _ => ?_) (h.expressionStatement hi)
  have token {kind : TokenKind} {message : String} :
      Keeps around P (Functor.discard (Parse.expect kind message)) := (h.expect trivial _).discard
  dsimp only
  split
  · refine token.bind fun _ => (h.initializerClause hf).bind fun _ => (h.clause hi _).bind fun _ => ?_
    refine token.bind fun _ => (h.clause hi _).bind fun _ => token.bind fun _ => ?_
    exact hb.bind fun _ => .pure _
  · refine token.bind fun _ => hi.bind fun _ => token.bind fun _ => hb.bind fun _ => ?_
    exact (h.optional trivial hb).bind fun _ => .pure _
  · exact hi.bind fun _ => token.bind fun _ => .pure _
  · exact (h.clause hi _).bind fun _ => token.bind fun _ => .pure _
  · exact token.bind fun _ => hi.bind fun _ => token.bind fun _ => hb.bind fun _ => .pure _
  · exact (h.blockRest hd hk).bind fun _ => .pure _

theorem declarationFrom {inner statement : Parse Node} {declaration : Parse (Option Node)}
    (hi : Keeps around P inner) (hs : Keeps around P statement) (hd : Declares declaration)
    (hk : Keeps around P declaration) :
    Keeps around P (declarationFrom inner statement declaration) := by
  refine h.accept (fun _ => trivial) (fun keyword _ => .ite ?_ (h.varDeclaration hi)) hs
  have name {message : String} : Keeps around P (Parse.expect .identifier message) :=
    h.expect trivial _
  refine name.bind fun _ => (h.expect trivial _).discard.bind fun _ => ?_
  refine (h.items ((Advances.expect _ _).mono (by omega)) name trivial _ _).bind fun _ => ?_
  refine (h.expect trivial _).discard.bind fun _ => (h.expect trivial _).discard.bind fun _ => ?_
  exact (h.blockRest hd hk).bind fun _ => .pure _

theorem statements (depth : Nat) :
    Keeps around P (declaration depth) ∧ Keeps around P (statement depth) := by
  refine statement_induction (P := fun depth => Keeps around P (declaration depth))
    (Q := fun depth => Keeps around P (statement depth)) (fun depth he => he ▸ .tooDeep)
    (fun depth he => he ▸ .tooDeep) (fun depth hs hd => ?_) (fun depth hs hd => ?_) depth
  · exact h.recovering h.synchronize (h.declarationFrom (h.expression _) hs (.declaration _) hd)
  · exact h.statementFrom (h.expression _) (h.expression _) hs (.declaration _) hd

end Ignores

/-! ## Up to a semicolon -/

/-- Tokens that end with a semicolon and among which none leads beyond it: there are no braces, and no
`for`, which has semicolons of its own. -/
structure Loose (ts : List Token) : Prop where
  ending : ∃ before semicolon, ts = before ++ [semicolon] ∧ semicolon.kind = .semicolon
  plain : ∀ token ∈ ts, token.kind ≠ .leftBrace ∧ token.kind ≠ .rightBrace ∧ token.kind ≠ .for ∧
    token.kind ≠ .eof

namespace Loose

variable {ts : List Token} {token : Token}

theorem ne_nil (h : Loose ts) : ts ≠ [] := by
  obtain ⟨before, semicolon, rfl, -⟩ := h.ending
  exact List.append_ne_nil_of_right_ne_nil _ nofun

/-- The semicolon is still to come, or it was read. -/
theorem tail (h : Loose (token :: ts)) : Loose ts ∨ (token.kind = .semicolon ∧ ts = []) := by
  obtain ⟨before, semicolon, hts, hk⟩ := h.ending
  cases before with
  | nil =>
    cases hts
    exact .inr ⟨hk, rfl⟩
  | cons first before =>
    cases hts
    exact .inl ⟨⟨before, semicolon, rfl, hk⟩, fun t ht => h.plain t (List.mem_cons_of_mem _ ht)⟩

/-- Skipping goes up to the last semicolon at most. -/
theorem resume (h : Loose (token :: ts)) (rest : List Token) :
    Cursor.resume token (ts ++ rest) = Cursor.resume token ts ++ rest ∧
      (Loose (Cursor.resume token ts) ∨ Cursor.resume token ts = []) := by
  induction ts generalizing token with
  | nil =>
    obtain ⟨hk, -⟩ := h.tail.resolve_left fun hl => hl.ne_nil rfl
    refine ⟨?_, .inr rfl⟩
    cases rest with
    | nil => rfl
    | cons next rest => simp [Cursor.resume, hk]
  | cons next ts ih =>
    have hl : Loose (next :: ts) := h.tail.resolve_right fun hend => List.cons_ne_nil _ _ hend.2
    rw [List.cons_append, Cursor.resume, Cursor.resume]
    split
    · exact ⟨rfl, .inl hl⟩
    · exact ih hl

end Loose

/-- A position before a semicolon that ends all. -/
def IsLoose (c : Cursor) : Prop := Loose c.rest ∧ c.finish.kind = .eof

/-- A position after all tokens. -/
def IsDone (c : Cursor) : Prop := c.rest = [] ∧ c.finish.kind = .eof

/-- A position before or after the semicolon that ends all. -/
def IsWithin (c : Cursor) : Prop := IsLoose c ∨ IsDone c

theorem IsLoose.advance {c : Cursor} (hc : IsLoose c) {token : Token} {ts : List Token}
    (hr : c.rest = token :: ts) : IsLoose c.advance ∨ (token.kind = .semicolon ∧ IsDone c.advance) := by
  obtain ⟨rest, finish, reported⟩ := c
  cases hr
  rcases hc.1.tail with hl | ⟨hk, hnil⟩
  · exact .inl ⟨hl, hc.2⟩
  · exact .inr ⟨hk, hnil, hc.2⟩

theorem IsLoose.synchronize {around : Surroundings} {c : Cursor} (hc : IsLoose c) :
    (c.inside around).synchronize = c.synchronize.inside around ∧ IsWithin c.synchronize := by
  obtain ⟨rest, finish, reported⟩ := c
  cases rest with
  | nil => exact absurd rfl hc.1.ne_nil
  | cons token ts =>
    obtain ⟨hsame, hwithin⟩ := hc.1.resume around.rest
    refine ⟨?_, hwithin.imp (⟨·, hc.2⟩) (⟨·, hc.2⟩)⟩
    simp only [Cursor.synchronize, Cursor.inside, List.cons_append, hsame]

theorem Carries.imp {α : Type} {around : Surroundings} {E P Q R : Cursor → Prop} {p : Parse α}
    (h : Carries around E P Q p) (hQR : ∀ {c}, Q c → R c) : Carries around E P R p :=
  ⟨h.same, fun hc hr => hQR (h.ok hc hr), h.error⟩

section

variable {around : Surroundings} (hf : around.finish.kind = .eof) {β : Type} {Q : Cursor → Prop}
include hf

theorem loose_hides : Expresses around (· ≠ .semicolon) IsLoose where
  ended := hf
  finish hc := hc.2
  head {c} hc := by
    obtain ⟨rest, finish, reported⟩ := c
    cases rest with
    | nil => exact absurd rfl hc.1.ne_nil
    | cons token ts => rfl
  peek {c} hc := by
    obtain ⟨rest, finish, reported⟩ := c
    cases rest with
    | nil => exact absurd rfl hc.1.ne_nil
    | cons token ts => rfl
  report hc _ _ := hc
  advance hc hr hk := (hc.advance hr).resolve_right fun hs => hk hs.1
  passes hk := hk

/-- After a semicolon there is another one to come, or nothing. -/
theorem Carries.semicolon (message : String) :
    Carries around IsLoose IsLoose IsWithin (Parse.expect .semicolon message) := by
  have h := loose_hides hf
  refine .bindOf (h.accept_same _) (fun {c token? c'} hc ha => ?_)
    (fun _ ha => absurd ha accept_ne_error)
  cases token? with
  | none =>
    obtain ⟨rfl, -⟩ := accept_none ha
    exact ⟨IsLoose, hc, h.fail message⟩
  | some token =>
    obtain ⟨hr, -, -, rfl⟩ := accept_some ha
    exact ⟨IsWithin, (hc.advance hr).imp id And.right, .pure token⟩

/-- A choice by the next token, which is neither a brace nor a `for`. -/
theorem Carries.choice {wanted : TokenKind → Bool} (hw : ∀ {kind}, wanted kind → kind ≠ .semicolon)
    {f : Option Token → Parse β}
    (hs : ∀ token, wanted token.kind → token.kind ≠ .leftBrace → token.kind ≠ .for →
      Carries around IsLoose IsLoose Q (f (some token)))
    (hn : Carries around IsLoose IsLoose Q (f none)) :
    Carries around IsLoose IsLoose Q (Parse.accept wanted >>= f) := by
  have h := loose_hides hf
  refine .bindOf (h.accept_same _) (fun {c token? c'} hc ha => ⟨IsLoose, ?_⟩)
    (fun _ ha => absurd ha accept_ne_error)
  cases token? with
  | none =>
    obtain ⟨rfl, -⟩ := accept_none ha
    exact ⟨hc, hn⟩
  | some token =>
    obtain ⟨hr, -, hk, rfl⟩ := accept_some ha
    obtain ⟨hbrace, -, hfor, -⟩ := hc.1.plain token (by rw [hr]; exact List.mem_cons_self)
    exact ⟨h.advance hc hr (hw hk), hs token hk hbrace hfor⟩

/-- A function's declaration gives up before its body. -/
theorem Carries.functionRest (declaration : Parse (Option Node)) :
    Carries around IsLoose IsLoose IsWithin (functionRest declaration) := by
  have h := loose_hides hf
  have name {message : String} : Keeps around IsLoose (Parse.expect .identifier message) :=
    h.expect (by decide) _
  have brace {message : String} :
      Carries around IsLoose IsLoose (fun _ => False) (Parse.expect .leftBrace message) := by
    refine .choice hf (fun {kind} hw => ?_) (fun token hw hne _ => ?_) (h.fail message)
    · rw [of_decide_eq_true hw]
      decide
    · exact absurd (of_decide_eq_true hw) hne
  refine name.bind fun _ => (h.expect (by decide) _).discard.bind fun _ => ?_
  refine (h.items ((Advances.expect _ _).mono (by omega)) name (by decide) _ _).bind fun _ => ?_
  refine (h.expect (by decide) _).discard.bind fun _ => brace.discard.bind fun _ => ?_
  exact ⟨nofun, nofun, nofun⟩

theorem Carries.expressionStatement (depth : Nat) :
    Carries around IsLoose IsLoose IsWithin (expressionStatement (expression depth)) :=
  ((loose_hides hf).expression depth).bind fun _ =>
    (Carries.semicolon hf _).discard.bind fun _ => .pure _

theorem Carries.varDeclaration (depth : Nat) :
    Carries around IsLoose IsLoose IsWithin (varDeclaration (expression depth)) := by
  have h := loose_hides hf
  refine (h.expect (by decide) _).bind fun _ => ?_
  refine (h.optional (by decide) (h.expression depth)).bind fun _ => ?_
  exact (Carries.semicolon hf _).discard.bind fun _ => .pure _

variable (he : Avoids (· = .else) around.rest)
include he

/-- After the last semicolon there is no `else`, neither at the end nor in the surroundings. -/
theorem Carries.noElse (rule : Parse Node) :
    Carries around IsLoose IsDone IsDone (optional .else rule) := by
  have absent {rest : List Token} (ha : Avoids (· = .else) rest) :
      Consumes (optional .else rule) [] .absent rest :=
    .otherwise (ha.mono fun _ => of_decide_eq_true) (.pure _ _)
  have done {c : Cursor} (hc : IsDone c) : optional .else rule c = .ok .absent c := by
    obtain ⟨rest, finish, reported⟩ := c
    obtain ⟨rfl, hfinish⟩ := hc
    exact absent .nil finish reported hfinish
  refine ⟨fun {c} hc => ?_, fun hc hr => ?_, fun hc hr => ?_⟩
  · rw [done hc]
    obtain ⟨rest, finish, reported⟩ := c
    obtain ⟨rfl, -⟩ := hc
    exact absent he around.finish _ hf
  · rw [done hc] at hr
    cases hr
    exact hc
  · rw [done hc] at hr
    cases hr

theorem Carries.elseBranch {rule : Parse Node} (hr : Carries around IsLoose IsLoose IsWithin rule) :
    Carries around IsLoose IsWithin IsWithin (optional .else rule) := by
  refine .cases fun {c} hc => ?_
  rcases hc with hc | hc
  · refine ⟨IsLoose, hc, .choice hf (fun {kind} hw => ?_) (fun _ _ _ _ => hr) ((pure _).imp .inl)⟩
    rw [of_decide_eq_true hw]
    decide
  · exact ⟨IsDone, hc, (Carries.noElse hf he rule).imp .inr⟩

theorem Carries.statementFrom {initial : Parse Node} {declaration : Parse (Option Node)} (depth : Nat)
    {body : Parse Node} (hb : Carries around IsLoose IsLoose IsWithin body) :
    Carries around IsLoose IsLoose IsWithin
      (statementFrom initial (expression depth) body declaration) := by
  have h := loose_hides hf
  have inner := h.expression depth
  have semicolon {message : String} := (Carries.semicolon hf message).discard
  have token {kind : TokenKind} {message : String} (hk : kind ≠ .semicolon) :
      Keeps around IsLoose (Functor.discard (Parse.expect kind message)) := (h.expect hk _).discard
  refine .choice hf (fun {kind} hw => ?_) (fun keyword hw hbrace hfor => ?_)
    (.expressionStatement hf depth)
  · rintro rfl
    cases hw
  dsimp only
  split
  · exact absurd ‹_› hfor
  · refine (token (by decide)).bind fun _ => inner.bind fun _ => (token (by decide)).bind fun _ => ?_
    exact hb.bind fun _ => (Carries.elseBranch hf he hb).bind fun _ => .pure _
  · exact inner.bind fun _ => semicolon.bind fun _ => .pure _
  · refine .bind ?_ fun _ => semicolon.bind fun _ => .pure _
    exact (h.check _).bind fun _ => .ite (.pure none) (inner.bind fun _ => .pure _)
  · refine (token (by decide)).bind fun _ => inner.bind fun _ => (token (by decide)).bind fun _ => ?_
    exact hb.bind fun _ => .pure _
  · revert hw hbrace hfor
    simp only [leadsStatement]
    grind

theorem Carries.statement (depth : Nat) :
    Carries around IsLoose IsLoose IsWithin (statement depth) :=
  (statement_induction (P := fun _ => True)
    (Q := fun depth => Carries around IsLoose IsLoose IsWithin (Parse.statement depth))
    (fun _ _ => trivial) (fun _ hdeep => hdeep ▸ .tooDeep) (fun _ _ _ => trivial)
    (fun _ hs _ => .statementFrom hf he _ hs) depth).2

theorem Carries.declarationFrom (depth : Nat) (declaration : Parse (Option Node)) :
    Carries around IsLoose IsLoose IsWithin
      (declarationFrom (expression (depth + 5)) (Parse.statement (depth + 6)) declaration) := by
  refine .choice hf (fun {kind} hw => ?_) (fun keyword _ _ _ => .ite ?_ ?_) (.statement hf he _)
  · rintro rfl
    cases hw
  · exact .functionRest hf declaration
  · exact .varDeclaration hf _

/-- A declaration among loose tokens does not leave them, whether it is well formed or not. -/
theorem Carries.declaration (depth : Nat) :
    Carries around (fun _ => False) IsLoose IsWithin (declaration (depth + 7)) :=
  (loose_hides hf).recovering IsLoose.synchronize (.declarationFrom hf he depth _)

end

/-! ## A statement without braces -/

/-- The last of the tokens is a semicolon, and none before it is. -/
def EndsWithSemicolon (ts : List Token) : Prop :=
  ∃ before semicolon, ts = before ++ [semicolon] ∧ semicolon.kind = .semicolon ∧
    ∀ token ∈ before, token.kind ≠ .semicolon

/-- The tokens of a statement without braces: it ends with its only semicolon, and a word that starts
a statement is the first of them, if there is one. -/
structure Unbraced (ts : List Token) : Prop where
  ending : EndsWithSemicolon ts
  plain : ∀ token ∈ ts, token.kind ≠ .leftBrace ∧ token.kind ≠ .rightBrace ∧ token.kind ≠ .for ∧
    token.kind ≠ .eof
  led : ∀ token ∈ ts.tail, token.kind.startsStatement = false

theorem Unbraced.loose {ts : List Token} (h : Unbraced ts) : Loose ts := by
  obtain ⟨before, semicolon, hts, hk, -⟩ := h.ending
  exact ⟨⟨before, semicolon, hts, hk⟩, h.plain⟩

/-! ## Programs -/

theorem atEnd_eq {c : Cursor} {isEnd : Bool} (h : c.atEnd = isEnd) : Parse.atEnd c = .ok isEnd c := by
  rw [← h]
  rfl

theorem declaration_ok {depth : Nat} (hd : 7 ≤ depth) (c : Cursor) :
    ∃ node? c', declaration depth c = .ok node? c' := by
  obtain ⟨depth, rfl⟩ := Nat.exists_eq_add_of_le' hd
  unfold declaration Parse.recovering
  split <;> exact ⟨_, _, rfl⟩

/-- A loop over declarations always ends, and adds to what was read before. -/
theorem declarationLoop_adds {depth : Nat} {c : Cursor} (hd : 7 ≤ depth) (hc : c.finish.kind = .eof) :
    ∃ nodes c', ∀ done, declarationLoop atEnd depth done c = .ok (nodes ++ done) c' := by
  generalize hn : c.rest.length = n
  induction n using Nat.strongRecOn generalizing c with
  | _ n ih =>
    cases hend : c.atEnd with
    | true => exact ⟨[], c, declarationLoop_end .atEnd hc (atEnd_eq hend)⟩
    | false =>
      obtain ⟨node?, c₁, h₁⟩ := declaration_ok hd c
      have declares := Declares.declaration depth
      have reads := declares.reads (fun hr => by simp [atEnd_of_rest hc hr] at hend) h₁
      have hc₁ := (declares.advances.ok h₁).1.finish ▸ hc
      obtain ⟨nodes, c', hloop⟩ := ih _ (hn ▸ reads) hc₁ rfl
      refine ⟨nodes ++ node?.toList, c', fun done => ?_⟩
      rw [declarationLoop_next .atEnd hc (atEnd_eq hend) h₁, hloop, List.append_assoc]

/-- A loop over declarations does not look at what was reported before. -/
theorem declarationLoop_reported (depth : Nat) (done : List Node) {rest : List Token} {finish : Token}
    (hf : finish.kind = .eof) (reported : List Diagnostic) :
    declarationLoop atEnd depth done ⟨rest, finish, reported⟩ =
      inside ⟨reported, [], finish⟩ (declarationLoop atEnd depth done ⟨rest, finish, []⟩) := by
  have h := ignores_reported reported hf
  have round (done : List Node) : Keeps ⟨reported, [], finish⟩ (·.finish = finish)
      (anotherDeclaration atEnd (declaration depth) done) :=
    h.atEnd.bind fun _ => .ite (.pure none) ((h.statements depth).1.bind fun _ => .pure _)
  have loop := (h.repeatWhile (Ends.atEnd.proceeds depth) round done).same
    (c := ⟨rest, finish, []⟩) rfl
  unfold declarationLoop
  simpa only [Cursor.inside, List.append_nil] using loop

/-- Before the semicolon neither a program nor a block ends. -/
theorem IsLoose.goesOn {c : Cursor} (hc : IsLoose c) (around : Surroundings) :
    c.atEnd = false ∧ (c.inside around).atEnd = false ∧ closes (c.inside around) = false := by
  obtain ⟨rest, finish, reported⟩ := c
  cases rest with
  | nil => exact absurd rfl hc.1.ne_nil
  | cons token ts =>
    obtain ⟨-, hbrace, -, heof⟩ := hc.1.plain token List.mem_cons_self
    simp [Cursor.atEnd, Cursor.peek, Cursor.inside, closes, hbrace, heof]

/-- A loop over declarations goes through loose tokens as it does through them alone, whatever comes
after them and whatever ends the loop. -/
theorem declarationLoop_loose {depth : Nat} (hd : 7 ≤ depth) {ended : Parse Bool} (hends : Ends ended)
    {around : Surroundings}
    (hgo : ∀ {c}, IsLoose c → ended (c.inside around) = .ok false (c.inside around))
    (hf : around.finish.kind = .eof) (he : Avoids (· = .else) around.rest)
    {c : Cursor} (hc : IsWithin c) :
    ∃ nodes c', IsDone c' ∧ ∀ done,
      declarationLoop atEnd depth done c = .ok (nodes ++ done) c' ∧
      declarationLoop ended depth done (c.inside around) =
        declarationLoop ended depth (nodes ++ done) (c'.inside around) := by
  generalize hn : c.rest.length = n
  induction n using Nat.strongRecOn generalizing c with
  | _ n ih =>
    rcases hc with hc | hc
    · obtain ⟨depth, rfl⟩ := Nat.exists_eq_add_of_le' hd
      have carries := Carries.declaration hf he depth
      obtain ⟨node?, c₁, h₁⟩ := declaration_ok hd c
      have same := carries.same hc
      rw [h₁] at same
      have reads := (Declares.declaration _).reads hc.1.ne_nil h₁
      obtain ⟨nodes, c', hdone, hloop⟩ := ih _ (hn ▸ reads) (carries.ok hc h₁) rfl
      refine ⟨nodes ++ node?.toList, c', hdone, fun done => ⟨?_, ?_⟩⟩
      · rw [declarationLoop_next .atEnd hc.2 (atEnd_eq (hc.goesOn around).1) h₁, (hloop _).1, List.append_assoc]
      · rw [declarationLoop_next hends hf (hgo hc) same, (hloop _).2, List.append_assoc]
    · refine ⟨[], c, hc, fun done => ⟨?_, rfl⟩⟩
      exact declarationLoop_end .atEnd hc.2 (atEnd_eq (atEnd_of_rest hc.2 hc.1)) done

end GameScript.Parse

namespace GameScript

open Parse Grammar

theorem parseTokens_of_loop {limits : Limits} {tokens : List Token} {finish : Token}
    {nodes : List Node} {c : Cursor}
    (h : declarationLoop atEnd limits.parsing [] ⟨tokens, finish, []⟩ = .ok nodes c) :
    parseTokens limits tokens finish = ⟨nodes.reverse, c.reported⟩ := by
  have parsed : program limits.parsing ⟨tokens, finish, []⟩ = .ok nodes.reverse c :=
    bind_eq_of_ok h
  rw [parseTokens, parsed]

/-- After a statement without braces, well formed or not, parsing goes on as if what follows stood
alone. -/
theorem parseTokens_resumes (limits : Limits) (bad rest : List Token) (finish finish' : Token)
    (hd : 7 ≤ limits.parsing) (hbad : Unbraced bad) (hf : finish.kind = .eof)
    (hrest : Avoids (· = .else) rest) (hf' : finish'.kind = .eof) :
    parseTokens limits (bad ++ rest) finish' =
      ⟨(parseTokens limits bad finish).statements ++ (parseTokens limits rest finish').statements,
        (parseTokens limits bad finish).diagnostics ++
          (parseTokens limits rest finish').diagnostics⟩ := by
  obtain ⟨first, c, ⟨hnil, -⟩, both⟩ := declarationLoop_loose (c := ⟨bad, finish, []⟩) hd .atEnd
    (fun hc => atEnd_eq (hc.goesOn ⟨[], rest, finish'⟩).2.1) hf' hrest (.inl ⟨hbad.loose, hf⟩)
  obtain ⟨alone, before⟩ := both []
  obtain ⟨nodes, c', loop⟩ :=
    declarationLoop_adds (c := ⟨rest, finish', []⟩) hd hf'
  have whole : declarationLoop atEnd limits.parsing [] ⟨bad ++ rest, finish', []⟩ =
      .ok (nodes ++ (first ++ [])) (c'.inside ⟨c.reported, [], finish'⟩) := by
    refine before.trans ?_
    simp only [Cursor.inside, hnil, List.nil_append]
    rw [declarationLoop_reported _ _ hf', loop]
    rfl
  rw [parseTokens_of_loop whole, parseTokens_of_loop alone, parseTokens_of_loop (loop [])]
  simp [Cursor.inside]

/-- The tokens of `print f(, ;`. -/
def unfinishedCall : List Token :=
  [word .print "print", name "f", word .leftParen "(", word .comma ",", word .semicolon ";"]

theorem unfinishedCall_resumes :
    Unbraced unfinishedCall ∧
      parseTokens .standard (unfinishedCall ++ [name "x", word .semicolon ";"]) (.finish 1) =
        ⟨[.expression (.variable (name "x"))],
          [Diagnostic.atToken (word .comma ",") "Expect expression."]⟩ := by
  have unbraced : Unbraced unfinishedCall :=
    ⟨⟨unfinishedCall.dropLast, word .semicolon ";", rfl, rfl, by decide⟩, by decide, by decide⟩
  refine ⟨unbraced, ?_⟩
  rw [parseTokens_resumes .standard unfinishedCall _ (.finish 1) _ (by decide) unbraced rfl
    (.cons (by decide)) rfl]
  rfl

end GameScript
