import GameScript.Proofs.Grammar.Basic
import GameScript.Proofs.Grammar.Progress

/-! # What a rule has read when nothing was reported

`Reads` says of a rule that ends well and reports nothing that it has read a phrase, and that it
would read the same phrase before any other rest of the tokens that begins alike. What may begin
alike is given by the kinds of token that the rule asks for at its end: only an `else` for
statements, any kind for expressions. The phrase may depend on the token that comes next, as
conditionals do. So whatever is parsed without a report derives from the grammar. -/

namespace GameScript.Parse

open Grammar

variable {α β : Type}

/-- Two lists begin with the same token, or neither begins with one of the given kinds. -/
def Alike (stop : TokenKind → Prop) (ts ts' : List Token) : Prop :=
  (∃ token, ts.head? = some token ∧ ts'.head? = some token) ∨
    ∀ token, ts.head? = some token ∨ ts'.head? = some token → ¬ stop token.kind

/-- All kinds of token. -/
def anyKind (_ : TokenKind) : Prop := True

theorem Alike.mono {stop stop' : TokenKind → Prop} {ts ts' : List Token} (h : Alike stop ts ts')
    (hs : ∀ kind, stop' kind → stop kind) : Alike stop' ts ts' :=
  h.imp_right fun hn token ht hk => hn token ht (hs _ hk)

theorem Alike.head {ts ts' : List Token} (h : Alike anyKind ts ts') : ts.head? = ts'.head? := by
  rcases h with ⟨token, h₁, h₂⟩ | hn
  · rw [h₁, h₂]
  · cases ts with
    | cons token ts => exact absurd trivial (hn token (.inl rfl))
    | nil =>
      cases ts' with
      | cons token ts' => exact absurd trivial (hn token (.inr rfl))
      | nil => rfl

theorem Alike.cons {stop : TokenKind → Prop} (token : Token) (ts ts' : List Token) :
    Alike stop (token :: ts) (token :: ts') := .inl ⟨token, rfl, rfl⟩

/-- Lists that go on alike after a common beginning begin alike. -/
theorem Alike.append {stop stop' : TokenKind → Prop} {ts rest rest' : List Token}
    (h : Alike stop rest rest') (hs : ts ≠ [] ∨ ∀ kind, stop' kind → stop kind) :
    Alike stop' (ts ++ rest) (ts ++ rest') := by
  cases ts with
  | nil => exact h.mono (hs.resolve_left (by simp))
  | cons token ts => exact .cons token _ _

/-- What a rule reads, given the token that comes next. -/
abbrev Phrase (α : Type) := Option Token → List Token → α → Prop

/-- A rule that reads phrases. -/
structure Reads (n : Nat) (stop : TokenKind → Prop) (p : Parse α) (R : Phrase α) : Prop
    extends Advances n p where
  reads : ∀ {c a c'}, c.finish.kind = .eof → p c = .ok a c' → c'.reported = c.reported →
    ∃ ts, c.rest = ts ++ c'.rest ∧ R c'.rest.head? ts a ∧ ∀ rest finish reported,
      finish.kind = .eof → Alike stop c'.rest rest →
      p ⟨ts ++ rest, finish, reported⟩ = .ok a ⟨rest, finish, reported⟩

namespace Reads

variable {n m : Nat} {stop stop' : TokenKind → Prop} {p : Parse α} {R S : Phrase α}

theorem mono (h : Reads n stop p R) (hm : m ≤ n)
    (hr : ∀ next ts a, R next ts a → S next ts a) : Reads m stop p S :=
  ⟨h.toAdvances.mono hm, fun hc hp he => by
    obtain ⟨ts, hts, hR, again⟩ := h.reads hc hp he
    exact ⟨ts, hts, hr _ _ _ hR, again⟩⟩

theorem less (h : Reads n stop p R) : Reads 0 stop p R :=
  h.mono (Nat.zero_le n) fun _ _ _ hR => hR

theorem pure (a : α) : Reads 0 stop (pure a : Parse α) fun _ ts b => ts = [] ∧ b = a :=
  ⟨.pure a, fun {c _ _} _ hp _ => by
    obtain ⟨rfl, rfl⟩ := pure_ok hp
    exact ⟨[], rfl, ⟨rfl, rfl⟩, fun _ _ _ _ _ => rfl⟩⟩

theorem fail (message : String) : Reads n stop (fail message : Parse α) R := ⟨.fail message, nofun⟩

theorem tooDeep : Reads n stop (tooDeep : Parse α) R := ⟨.tooDeep, nofun⟩

/-- Two rules, one after the other. The second one reads a token, or it asks at its end for all that
the first one asks for. -/
theorem bind {f : α → Parse β} {T : α → Phrase β} (hp : Reads n stop' p R)
    (hf : ∀ a, Reads m stop (f a) (T a)) (hs : 0 < m ∨ ∀ kind, stop' kind → stop kind) :
    Reads (n + m) stop (p >>= f) fun next ts b => ∃ ts₁ a ts₂, ts = ts₁ ++ ts₂ ∧
      R (ts₂.head?.or next) ts₁ a ∧ T a next ts₂ b := by
  refine ⟨hp.toAdvances.bind fun a => (hf a).toAdvances, fun {c b c''} hc h he => ?_⟩
  obtain ⟨a, c', h₁, h₂⟩ := bind_ok h
  have l₁ := (hp.ok h₁).1
  obtain ⟨l₂, k₂⟩ := (hf a).ok h₂
  have e₁ : c'.reported = c.reported := by
    have hle := l₂.reported
    rw [he] at hle
    exact hle.eq_of_length_le l₁.reported.length_le
  obtain ⟨ts₁, r₁, R₁, again₁⟩ := hp.reads hc h₁ e₁
  obtain ⟨ts₂, r₂, T₂, again₂⟩ := (hf a).reads (by rw [l₁.finish]; exact hc) h₂ (he.trans e₁.symm)
  rw [r₂, List.head?_append] at R₁
  refine ⟨ts₁ ++ ts₂, by rw [r₁, r₂, List.append_assoc], ⟨ts₁, a, ts₂, rfl, R₁, T₂⟩, ?_⟩
  intro rest finish reported hfin ha
  have hne : ts₂ ≠ [] ∨ ∀ kind, stop' kind → stop kind := by
    refine hs.imp_left fun hm hnil => ?_
    rw [r₂, hnil, List.nil_append] at k₂
    omega
  rw [List.append_assoc, bind_eq_of_ok (again₁ (ts₂ ++ rest) finish reported hfin
    (by rw [r₂]; exact ha.append hne))]
  exact again₂ rest finish reported hfin ha

theorem complain_of {f : Parse α} (token : Token) (message : String) (h : Advances n f) :
    Reads n stop (Parse.complain token message >>= fun _ => f) R := by
  refine ⟨((Advances.complain token message).bind fun _ => h).mono (by omega), fun {c a c'} _ hp he => ?_⟩
  obtain ⟨u, c₁, h₁, h₂⟩ := bind_ok hp
  cases h₁
  have hl := (h.ok h₂).1.reported.length_le
  simp only [he, Cursor.report, List.length_append, List.length_singleton] at hl
  omega

/-- A choice by the next token. If it is not read, the rule must read one later on, or ask for the
wanted kinds at its end. -/
theorem accept {k : Nat} {wanted : TokenKind → Bool} {f : Option Token → Parse β}
    {T : Token → Phrase β} {U : Phrase β}
    (hs : ∀ token, wanted token.kind → Reads k stop (f (some token)) (T token))
    (hn : Reads m stop (f none) U) (hm : m ≤ k + 1) (hw : 0 < m ∨ ∀ kind, wanted kind → stop kind) :
    Reads m stop (accept wanted >>= f) fun next ts b =>
      (∃ token ts', ts = token :: ts' ∧ wanted token.kind ∧ T token next ts' b) ∨
      U next ts b ∧ ∀ token ∈ ts.head?.or next, token.kind ≠ .eof → ¬ wanted token.kind := by
  refine ⟨.accept (fun t ht => (hs t ht).toAdvances) hn.toAdvances hm, fun {c b c''} hc h he => ?_⟩
  obtain ⟨t?, c', h₁, h₂⟩ := bind_ok h
  cases t? with
  | none =>
    obtain ⟨rfl, hno⟩ := accept_none h₁
    obtain ⟨ts, hr, hU, again⟩ := hn.reads hc h₂ he
    refine ⟨ts, hr, .inr ⟨hU, ?_⟩, fun rest finish reported hf ha => ?_⟩
    · rwa [hr, List.head?_append] at hno
    have hne : ts ≠ [] ∨ ∀ kind, wanted kind → stop kind := by
      refine hw.imp_left fun h0 hnil => ?_
      have := (hn.ok h₂).2
      rw [hr, hnil, List.nil_append] at this
      omega
    -- the token that was not wanted comes next again, or another one that is not wanted
    have hnone : Parse.accept wanted ⟨ts ++ rest, finish, reported⟩ =
        .ok none ⟨ts ++ rest, finish, reported⟩ := by
      have hh : ∀ token, (ts ++ rest).head? = some token → token.kind = .eof ∨ ¬ wanted token.kind := by
        intro token ht
        have ha' : Alike (fun kind => wanted kind) (ts ++ c''.rest) (ts ++ rest) := ha.append hne
        rcases ha' with ⟨t, h₁, h₂⟩ | hno'
        · rw [h₂] at ht
          cases ht
          rw [← hr] at h₁
          exact Decidable.or_iff_not_imp_left.mpr (hno _ (by simp [h₁]))
        · exact .inr (hno' token (.inr ht))
      unfold Parse.accept
      split
      · rfl
      · next token ts' hr' =>
        rw [if_neg]
        simp only [ne_eq, Bool.and_eq_true, decide_eq_true_eq]
        intro hk
        have := hh token (by simp only at hr'; rw [hr']; rfl)
        exact this.elim hk.1 fun hnw => hnw hk.2
    rw [bind_eq_of_ok hnone]
    exact again rest finish reported hf ha
  | some token =>
    obtain ⟨hr, hk, hwant, rfl⟩ := accept_some h₁
    obtain ⟨ts, hr', hT, again⟩ := (hs token hwant).reads (c := c.advance) hc h₂ he
    refine ⟨token :: ts, by rw [hr, hr', List.cons_append], .inl ⟨token, ts, rfl, hwant, hT⟩, ?_⟩
    intro rest finish reported hf ha
    have hsome : Parse.accept wanted ⟨token :: ts ++ rest, finish, reported⟩ =
        .ok (some token) ⟨ts ++ rest, finish, reported⟩ := by
      unfold Parse.accept
      simp [hk, hwant, Cursor.advance]
    rw [bind_eq_of_ok hsome]
    exact again rest finish reported hf ha

theorem expect (kind : TokenKind) (message : String) :
    Reads 1 stop (expect kind message) fun _ ts token => ts = [token] ∧ token.kind = kind := by
  refine (accept (m := 1) (k := 0) (fun token _ => pure token)
    (fail (R := fun _ _ _ => False) message) (by omega) (.inl (by omega))).mono (by omega) ?_
  intro next ts a phrase
  rcases phrase with ⟨token, ts', rfl, hk, rfl, rfl⟩ | ⟨hf, -⟩
  · exact ⟨rfl, by simpa using hk⟩
  · exact hf.elim

theorem discard (h : Reads n stop p R) :
    Reads n stop (discard p) fun next ts _ => ∃ a, R next ts a := by
  refine (h.bind (fun _ => pure ()) (.inr fun _ hk => hk)).mono (by omega) ?_
  intro next ts _ phrase
  obtain ⟨ts₁, a, ts₂, rfl, hR, rfl, -⟩ := phrase
  exact ⟨a, by simpa using hR⟩

/-- A look at the next token reads nothing. -/
theorem look {p : Parse Bool} (answer : Option Token → Bool) (hl : Advances 0 p)
    (hp : ∀ c : Cursor, c.finish.kind = .eof → p c = .ok (answer c.rest.head?) c) :
    Reads 0 anyKind p fun _ ts _ => ts = [] := by
  refine ⟨hl, fun {c a c'} hc h _ => ?_⟩
  rw [hp c hc] at h
  cases h
  refine ⟨[], rfl, rfl, fun rest finish reported hf ha => ?_⟩
  rw [List.nil_append, hp _ hf, ha.head]

theorem check (kind : TokenKind) : Reads 0 anyKind (check kind) fun _ ts _ => ts = [] := by
  refine look (fun next => next.any fun token => !decide (token.kind = .eof) && token.kind = kind)
    (.check kind) fun c hc => ?_
  obtain ⟨rest, finish, reported⟩ := c
  cases rest with
  | nil => simp [Parse.check, Cursor.atEnd, Cursor.peek, show finish.kind = .eof from hc]
  | cons token rest => rfl

theorem blockEnds : Reads 0 anyKind blockEnds fun _ ts _ => ts = [] := by
  refine look (fun next => next.all fun token =>
    (!decide (token.kind = .eof) && decide (token.kind = .rightBrace)) || decide (token.kind = .eof))
    ?_ fun c hc => ?_
  · exact (Advances.check _).bind (m := 0) fun _ => Advances.atEnd.bind (m := 0) fun _ => .pure _
  · rw [blockEnds_eq]
    obtain ⟨rest, finish, reported⟩ := c
    cases rest with
    | nil => simp [closes, Cursor.atEnd, Cursor.peek, show finish.kind = .eof from hc]
    | cons token rest => rfl

end Reads

/-! ## Loops -/

/-- The tokens of any number of rounds, and the state after them. -/
inductive Rounds {σ : Type} (S : σ → List Token → σ → Prop) : σ → List Token → σ → Prop where
  | done {s : σ} : Rounds S s [] s
  | round {s s' s'' : σ} {ts ts' : List Token} :
      S s ts s' → Rounds S s' ts' s'' → Rounds S s (ts ++ ts') s''

/-- What a round of a loop reads: nothing if it is the last one. -/
def OneRound {σ : Type} (S : σ → List Token → σ → Prop) (s : σ) (ts : List Token) : Option σ → Prop
  | some s' => S s ts s'
  | none => ts = []

theorem Reads.repeatWhile {σ : Type} {step : σ → Parse (Option σ)} {S : σ → List Token → σ → Prop}
    (h : Proceeds step) (hs : ∀ s, Reads 0 anyKind (step s) fun _ => OneRound S s) (s : σ) :
    Reads 0 anyKind (repeatWhile step s) fun _ => Rounds S s := by
  refine ⟨.repeatWhile h.advances s, fun {c s'' c''} hc hr he => ?_⟩
  have rounds := h.repeats s hc
  rw [hr] at rounds
  clear hr
  generalize hlast : EStateM.Result.ok s'' c'' = result at rounds
  induction rounds with
  | ends h₁ =>
    cases hlast
    obtain ⟨ts, hts, hnil, again⟩ := (hs s'').reads hc h₁ he
    cases hnil
    refine ⟨[], hts, .done, fun rest finish reported hf ha => ?_⟩
    rw [repeatWhile_eq h s'' hf, bind_eq_of_ok (again rest finish reported hf ha)]
    rfl
  | stops => cases hlast
  | @again s s' c c' result h₁ later ih =>
    have l₁ := ((hs s).ok h₁).1
    have l₂ := later.leads h.advances hlast.symm
    have e₁ : c'.reported = c.reported := by
      have hle := l₂.reported
      rw [he] at hle
      exact hle.eq_of_length_le l₁.reported.length_le
    obtain ⟨ts₁, r₁, S₁, again₁⟩ := (hs s).reads hc h₁ e₁
    obtain ⟨ts₂, r₂, S₂, again₂⟩ := ih (l₁.finish ▸ hc) (he.trans e₁.symm) hlast
    refine ⟨ts₁ ++ ts₂, by rw [r₁, r₂, List.append_assoc], .round S₁ S₂, ?_⟩
    intro rest finish reported hf ha
    rw [repeatWhile_eq h s hf, List.append_assoc, bind_eq_of_ok (again₁ (ts₂ ++ rest) finish
      reported hf (by rw [r₂]; exact ha.append (.inr fun _ hk => hk)))]
    exact again₂ rest finish reported hf ha

/-! ## Lists -/

theorem Reads.complainIfCrowded (crowded : Option String) (before : Nat) :
    Reads 0 anyKind (complainIfCrowded crowded before) fun _ ts _ =>
      ts = [] ∧ (crowded.isSome → before < maxArguments) := by
  unfold Parse.complainIfCrowded
  split
  · split
    · refine ⟨.complainHere _, fun {c a c'} _ hp he => ?_⟩
      cases hp
      exact absurd he (Cursor.report_ne _ _ _)
    · next hlt => exact (Reads.pure ()).mono (by omega) fun _ ts a h => ⟨h.1, fun _ => by omega⟩
  · exact (Reads.pure ()).mono (by omega) fun _ ts a h => ⟨h.1, nofun⟩

/-- An item after those already read. -/
def ItemAfter (R : List Token → α → Prop) (crowded : Option String) (done : List α) (ts : List Token)
    (done' : List α) : Prop :=
  ∃ a, R ts a ∧ done' = a :: done ∧ (crowded.isSome → done.length < maxArguments)

/-- An item after those already read and a comma. -/
def ItemAfterComma (R : List Token → α → Prop) (crowded : Option String) (done : List α)
    (ts : List Token) (done' : List α) : Prop :=
  ∃ comma ts', ts = comma :: ts' ∧ comma.kind = .comma ∧ ItemAfter R crowded done ts' done'

theorem Reads.itemAfter {n : Nat} {item : Parse α} {R : List Token → α → Prop}
    (h : Reads n anyKind item fun _ => R) (crowded : Option String) (done : List α) :
    Reads n anyKind (itemAfter crowded item done) fun _ => ItemAfter R crowded done := by
  refine ((Reads.complainIfCrowded crowded done.length).bind (fun _ =>
    h.bind (fun a => Reads.pure (a :: done)) (.inr fun _ hk => hk)) (.inr fun _ hk => hk)).mono
    (by omega) ?_
  intro next ts done' phrase
  obtain ⟨-, -, -, rfl, ⟨rfl, hlt⟩, ts₁, a, -, rfl, hR, rfl, rfl⟩ := phrase
  exact ⟨a, by simpa using hR, rfl, hlt⟩

theorem Reads.anotherItem {item : Parse α} {R : List Token → α → Prop}
    (h : Reads 0 anyKind item fun _ => R) (crowded : Option String) (done : List α) :
    Reads 0 anyKind (anotherItem crowded item done) fun _ =>
      OneRound (ItemAfterComma R crowded) done := by
  unfold Parse.anotherItem
  refine Reads.mono (n := 0) (Reads.accept (k := 0) (fun _ _ => (h.itemAfter crowded done).bind
    (fun done' => Reads.pure (some done')) (.inr fun _ hk => hk)) (Reads.pure none) (by omega)
    (.inr fun _ _ => trivial)) (by omega) ?_
  intro next ts done'' phrase
  rcases phrase with ⟨comma, -, rfl, hk, ts₁, done', -, rfl, hi, rfl, rfl⟩ | ⟨⟨rfl, rfl⟩, -⟩
  · exact ⟨comma, ts₁, by simp, by simpa using hk, hi⟩
  · rfl

/-- The rounds of a list after its first item. -/
theorem separated_of_rounds {R : List Token → α → Prop} {crowded : Option String}
    {done done' : List α} {ts : List Token} (h : Rounds (ItemAfterComma R crowded) done ts done') :
    ∀ {before ts₀ a}, done = a :: before → R ts₀ a →
      (crowded.isSome → before.length < maxArguments) →
      ∃ as, done' = as.reverse ++ before ∧ Separated R (ts₀ ++ ts) as ∧
        (crowded.isSome → done'.length ≤ maxArguments) := by
  induction h with
  | done =>
    intro before ts₀ a hbefore hR hlt
    obtain rfl := hbefore
    exact ⟨[a], rfl, by simpa using Separated.one hR, fun hc => hlt hc⟩
  | round hround _ ih =>
    intro before ts₀ a hbefore hR hlt
    obtain rfl := hbefore
    obtain ⟨comma, ts', rfl, hk, a', hR', rfl, hlt'⟩ := hround
    obtain ⟨as, rfl, hsep, hmax⟩ := ih rfl hR' hlt'
    refine ⟨a :: as, by simp, ?_, hmax⟩
    simpa using Separated.more hR hk hsep

theorem Reads.items {item : Parse α} {R : List Token → α → Prop}
    (h : Reads 0 anyKind item fun _ => R) (closing : TokenKind) (crowded : Option String) :
    Reads 0 anyKind (items closing crowded item) fun _ ts as =>
      Listed R ts as ∧ (crowded.isSome → as.length ≤ maxArguments) := by
  have some : Reads 0 anyKind (Parse.itemAfter crowded item [] >>= fun first =>
      Parse.repeatWhile (Parse.anotherItem crowded item) first >>= fun done =>
        Pure.pure done.reverse) fun _ ts as =>
      Listed R ts as ∧ (crowded.isSome → as.length ≤ maxArguments) := by
    refine ((h.itemAfter crowded []).bind (fun first =>
      (Reads.repeatWhile (Proceeds.anotherItem h.toAdvances crowded) (h.anotherItem crowded) first).bind
        (fun done => Reads.pure done.reverse) (.inr fun _ hk => hk)) (.inr fun _ hk => hk)).mono
      (by omega) ?_
    intro next ts as phrase
    obtain ⟨ts₁, first, -, rfl, ⟨a, hR, rfl, hlt⟩, ts₂, done, -, rfl, hrounds, rfl, rfl⟩ := phrase
    obtain ⟨as, rfl, hsep, hmax⟩ := separated_of_rounds hrounds rfl hR hlt
    exact ⟨.some (by simpa using hsep), by simpa using hmax⟩
  refine ((Reads.check closing).bind (m := 0) (T := fun _ _ ts as =>
    Listed R ts as ∧ (crowded.isSome → as.length ≤ maxArguments)) (fun empty => ?_)
    (.inr fun _ hk => hk)).mono (by omega) ?_
  · split
    · refine (Reads.pure []).mono (by omega) ?_
      intro next ts as phrase
      obtain ⟨rfl, rfl⟩ := phrase
      exact ⟨.none, fun _ => Nat.zero_le _⟩
    · exact some
  · intro next ts as phrase
    obtain ⟨-, -, ts', rfl, rfl, hR⟩ := phrase
    exact hR

/-! ## Expressions -/

theorem list_of_listed {ts : List Token} {nodes : List Node}
    (h : Listed (Derives .expression) ts nodes) : Derives .list ts (.sequence nodes) := by
  cases h with
  | none => exact .noItems
  | some h =>
    refine .someItems ?_
    induction h with
    | one h => exact .item h
    | more h hk _ ih => exact .moreItems h hk ih

/-- A phrase and then a token of a kind. -/
theorem Reads.ended {n : Nat} {inner : Parse α} {R : Phrase α} {S : List Token → β → Prop}
    {stop : TokenKind → Prop} (h : Reads n anyKind inner R) (kind : TokenKind) (message : String)
    (build : α → β)
    (hS : ∀ next ts closing a, R next ts a → closing.kind = kind → S (ts ++ [closing]) (build a)) :
    Reads (n + 1) stop (inner >>= fun a =>
      Functor.discard (Parse.expect kind message) >>= fun _ => Pure.pure (build a)) fun _ => S := by
  refine (h.bind (m := 1) (fun a => (Reads.expect kind message).discard.bind
    (fun _ => Reads.pure (build a)) (.inr fun _ hk => hk)) (.inl (by omega))).mono (by omega) ?_
  intro next ts b phrase
  obtain ⟨ts₁, a, -, rfl, hR, -, -, -, rfl, ⟨closing, rfl, hk⟩, rfl, rfl⟩ := phrase
  exact hS _ ts₁ closing a hR hk

theorem Reads.callRest {inner : Parse Node} (h : Reads 0 anyKind inner fun _ => Derives .expression)
    (callee : Node) :
    Reads 1 anyKind (callRest inner callee) fun _ ts node => ∃ ts' closing arguments,
      ts = ts' ++ [closing] ∧ node = .call callee closing (.sequence arguments) ∧
      Derives .list ts' (.sequence arguments) ∧ arguments.length ≤ maxArguments ∧
      closing.kind = .rightParen := by
  unfold Parse.callRest
  refine ((h.items _ _).bind (m := 1) (fun arguments => ((Reads.expect _ _).bind (fun paren =>
    Reads.pure _) (.inr fun _ hk => hk)).mono (by omega) fun _ _ _ hT => hT) (.inl (by omega))).mono
    (by omega) ?_
  intro next ts node phrase
  obtain ⟨ts₁, arguments, -, rfl, ⟨hl, hmax⟩, -, closing, -, rfl, ⟨rfl, hk⟩, rfl, rfl⟩ := phrase
  exact ⟨ts₁, closing, arguments, rfl, rfl, list_of_listed hl, hmax rfl, hk⟩

theorem Reads.indexRest {inner : Parse Node} (h : Reads 0 anyKind inner fun _ => Derives .expression)
    (target : Node) (opening : Token) :
    Reads 1 anyKind (indexRest inner target opening) fun _ ts node => ∃ ts' closing index,
      ts = ts' ++ [closing] ∧ node = .indexGet target opening index ∧
      Derives .expression ts' index ∧ closing.kind = .rightBracket :=
  h.ended _ _ _ fun _ ts closing index hd hk => ⟨ts, closing, index, rfl, rfl, hd, hk⟩

/-- What one more operator of a level reads. -/
def OperatorRound (level : Level) (left : Node) (ts : List Token) (node : Node) : Prop :=
  ∃ operator ts' right, ts = operator :: ts' ∧ node = level.node left operator right ∧
    level.has operator.kind ∧ Derives (operand level) ts' right

theorem Reads.anotherOperator {inner : Parse Node} {level : Level}
    (h : Reads 0 anyKind inner fun _ => Derives (operand level)) (left : Node) :
    Reads 0 anyKind (anotherOperator level inner left) fun _ =>
      OneRound (OperatorRound level) left := by
  unfold Parse.anotherOperator
  refine Reads.mono (n := 0) (Reads.accept (k := 0) (fun operator _ => h.bind
    (fun right => Reads.pure (some (level.node left operator right))) (.inr fun _ hk => hk))
    (Reads.pure none) (by omega) (.inr fun _ _ => trivial)) (by omega) ?_
  intro next ts node phrase
  rcases phrase with ⟨operator, -, rfl, hk, ts₁, right, -, rfl, hd, rfl, rfl⟩ | ⟨⟨rfl, rfl⟩, -⟩
  · exact ⟨operator, ts₁, right, by simp, rfl, hk, hd⟩
  · rfl

theorem chain_of_rounds {level : Level} {left node : Node} {ts : List Token}
    (h : Rounds (OperatorRound level) left ts node) : Derives (.chain level left) ts node := by
  induction h with
  | done => exact .chainEnd
  | round hround _ ih =>
    obtain ⟨operator, ts', right, rfl, rfl, hk, hd⟩ := hround
    rw [node_eq] at ih
    exact .chainStep ((has_iff _ _).mp hk) hd ih

/-- What one more call or indexing reads. -/
inductive SuffixRound (target : Node) : List Token → Node → Prop where
  | call {opening closing : Token} {ts : List Token} {arguments : List Node} :
      opening.kind = .leftParen → Derives .list ts (.sequence arguments) →
      arguments.length ≤ maxArguments → closing.kind = .rightParen →
      SuffixRound target (opening :: (ts ++ [closing])) (.call target closing (.sequence arguments))
  | index {opening closing : Token} {ts : List Token} {index : Node} :
      opening.kind = .leftBracket → Derives .expression ts index → closing.kind = .rightBracket →
      SuffixRound target (opening :: (ts ++ [closing])) (.indexGet target opening index)

theorem Reads.anotherSuffix {argument index : Parse Node}
    (ha : Reads 0 anyKind argument fun _ => Derives .expression)
    (hi : Reads 0 anyKind index fun _ => Derives .expression) (target : Node) :
    Reads 0 anyKind (anotherSuffix argument index target) fun _ => OneRound SuffixRound target := by
  unfold Parse.anotherSuffix
  refine Reads.mono (n := 0) (Reads.accept (k := 0) (T := fun opening _ ts node =>
    OneRound SuffixRound target (opening :: ts) node) (fun opening hw => ?_) (Reads.pure none)
    (by omega) (.inr fun _ _ => trivial)) (by omega) ?_
  · dsimp only
    split
    · next hk =>
      refine ((ha.callRest target).bind (fun node => Reads.pure (some node))
        (.inr fun _ hk => hk)).mono (by omega) ?_
      intro next ts node phrase
      obtain ⟨-, -, -, rfl, ⟨ts', closing, arguments, rfl, rfl, hl, hm, hc⟩, rfl, rfl⟩ := phrase
      simpa [OneRound] using SuffixRound.call hk hl hm hc
    · next hne =>
      have hk : opening.kind = .leftBracket := by simpa [hne] using hw
      refine ((hi.indexRest target opening).bind (fun node => Reads.pure (some node))
        (.inr fun _ hk => hk)).mono (by omega) ?_
      intro next ts node phrase
      obtain ⟨-, -, -, rfl, ⟨ts', closing, index, rfl, rfl, hd, hc⟩, rfl, rfl⟩ := phrase
      simpa [OneRound] using SuffixRound.index hk hd hc
  · intro next ts node phrase
    rcases phrase with ⟨opening, ts', rfl, -, hT⟩ | ⟨⟨rfl, rfl⟩, -⟩
    · exact hT
    · rfl

theorem suffixes_of_rounds {target node : Node} {ts : List Token}
    (h : Rounds SuffixRound target ts node) : Derives (.suffixes target) ts node := by
  induction h with
  | done => exact .suffixesEnd
  | round hround _ ih =>
    cases hround with
    | call ho hl hm hc => simpa using Derives.suffixCall ho hl hm hc ih
    | index ho hd hc => simpa using Derives.suffixIndex ho hd hc ih

theorem Reads.primaryFrom {inner : Parse Node} (h : Reads 0 anyKind inner fun _ => Derives .expression) :
    Reads 1 anyKind (primaryFrom inner) fun _ => Derives .primary := by
  unfold Parse.primaryFrom
  refine Reads.mono (n := 1) (Reads.accept (k := 0)
    (T := fun token _ ts node => Derives .primary (token :: ts) node) (fun token hw => ?_)
    (Reads.fail (R := fun _ _ _ => False) _) (by omega) (.inl (by omega))) (by omega) ?_
  · have one : ∀ node, Derives .primary [token] node → Reads 0 anyKind (Pure.pure node)
        fun _ ts a => Derives .primary (token :: ts) a := by
      intro node hd
      refine (Reads.pure node).mono (by omega) ?_
      intro next ts a phrase
      obtain ⟨rfl, rfl⟩ := phrase
      exact hd
    dsimp only
    split
    · next hk => exact one _ (.falsehood hk)
    · next hk => exact one _ (.truth hk)
    · next hk => exact one _ (.nothing hk)
    · next hk => exact one _ (.reference hk)
    · next hk =>
      exact (h.ended _ _ _ fun _ ts closing node hd hc => Derives.grouping hk hd hc).less
    · next hk =>
      exact ((h.items _ _).ended _ _ _ fun _ ts closing elements hl hc =>
        Derives.array hk (list_of_listed hl.1) hc).less
    · next h₁ h₂ h₃ h₄ h₅ h₆ =>
      refine one _ (.constant ?_)
      simp only [startsPrimary, Bool.or_eq_true, decide_eq_true_eq] at hw
      grind
  · intro next ts node phrase
    rcases phrase with ⟨token, ts', rfl, -, hT⟩ | ⟨hf, -⟩
    · exact hT
    · exact hf.elim

/-- What an assignment makes of its target. -/
inductive Assigned (value : Node) : Node → Node → Prop where
  | name {name : Token} : Assigned value (.variable name) (.assign name value)
  | element {target index : Node} {opening : Token} :
      Assigned value (.indexGet target opening index) (.indexSet target opening index value)

theorem Reads.assignTo (target : Node) (equals : Token) (value : Node) :
    Reads 0 anyKind (assignTo target equals value) fun _ ts node =>
      ts = [] ∧ Assigned value target node := by
  unfold Parse.assignTo
  split
  · exact (Reads.pure _).mono (by omega) fun _ ts node h => ⟨h.1, h.2 ▸ .name⟩
  · exact (Reads.pure _).mono (by omega) fun _ ts node h => ⟨h.1, h.2 ▸ .element⟩
  · exact Reads.complain_of _ _ (Advances.pure _)

/-- An assignment derives from what its target was read as. -/
theorem Assigned.derives {target value node : Node} {equals : Token} {ts ts' : List Token}
    (h : Assigned value target node) (ht : Derives (.operators .or) ts target)
    (he : equals.kind = .equal) (hv : Derives .expression ts' value) :
    Derives .expression (ts ++ equals :: ts') node := by
  cases h with
  | name =>
    obtain ⟨rfl, hk⟩ := ht.variable_inv
    exact .assignName hk he hv
  | element =>
    obtain ⟨ts₁, ts₂, closing, rfl, hcall, ho, hi, hc⟩ := ht.indexGet_inv
    simpa using Derives.assignElement hcall ho hi hc he hv

/-- The phrases that a rule reads. -/
def Rule.symbol : Rule → Symbol
  | .expression | .assignment => .expression
  | .operators level => .operators level
  | .unary => .unary
  | .suffixed => .call
  | .primary => .primary

@[simp]
theorem Rule.symbol_operand (level : Level) : (Rule.operand level).symbol = Grammar.operand level := by
  cases level <;> rfl

theorem Reads.rule (rule : Rule) (depth : Nat) :
    Reads 1 anyKind (rule.at depth) fun _ => Derives rule.symbol := by
  induction rule, depth using Rule.induction with
  | deep rule depth h => rw [h]; exact .tooDeep
  | expression depth ih => exact ih
  | assignment depth left value =>
    refine Reads.mono (n := 1 + 0) (left.bind (T := fun target _ ts node =>
      (∃ equals ts', ts = equals :: ts' ∧ equals.kind = .equal ∧ ∃ assigned,
        Derives .expression ts' assigned ∧ Assigned assigned target node) ∨ ts = [] ∧ node = target)
      (fun target => ?_) (.inr fun _ hk => hk)) (by omega) ?_
    · refine Reads.mono (n := 0) (Reads.accept (k := 0) (fun equals _ => (value.bind
        (fun assigned => Reads.assignTo target equals assigned) (.inr fun _ hk => hk)).less)
        (Reads.pure target) (by omega) (.inr fun _ _ => trivial)) (by omega) ?_
      intro next ts node phrase
      rcases phrase with ⟨equals, -, rfl, hk, ts', assigned, -, rfl, hv, rfl, ha⟩ | ⟨hT, -⟩
      · exact .inl ⟨equals, ts', by simp, by simpa using hk, assigned, hv, ha⟩
      · exact .inr hT
    · intro next ts node phrase
      obtain ⟨ts₁, target, -, rfl, ht, ⟨equals, ts', rfl, hk, assigned, hv, ha⟩ |
        ⟨rfl, rfl⟩⟩ := phrase
      · exact ha.derives ht hk hv
      · exact .value (by simpa [Rule.symbol] using ht)
  | operators level depth ih =>
    show Reads 1 anyKind (Parse.operators level (depth + 2)) _
    rw [operators_eq]
    rw [Rule.symbol_operand] at ih
    have one := ih.less
    refine (ih.bind (fun left => Reads.repeatWhile (Proceeds.anotherOperator one.toAdvances level)
      one.anotherOperator left) (.inr fun _ hk => hk)).mono (by omega) ?_
    intro next ts node phrase
    obtain ⟨ts₁, left, ts₂, rfl, hd, hrounds⟩ := phrase
    exact .operators hd (chain_of_rounds hrounds)
  | unary depth right call =>
    refine Reads.mono (n := 1) (Reads.accept (k := 0) (fun operator _ => (right.bind
      (fun node => Reads.pure (Node.unary operator node)) (.inr fun _ hk => hk)).less) call
      (by omega) (.inl (by omega))) (by omega) ?_
    intro next ts node phrase
    rcases phrase with ⟨operator, -, rfl, hk, ts', right, -, rfl, hd, rfl, rfl⟩ | ⟨hd, -⟩
    · rw [List.append_nil]
      exact .sign (by simpa using hk) hd
    · exact .unsigned hd
  | suffixed depth target argument index =>
    have argument := argument.less
    have index := index.less
    refine (target.bind (fun node => Reads.repeatWhile
      (Proceeds.anotherSuffix argument.toAdvances index.toAdvances) (argument.anotherSuffix index)
      node) (.inr fun _ hk => hk)).mono (by omega) ?_
    intro next ts node phrase
    obtain ⟨ts₁, target, ts₂, rfl, hd, hrounds⟩ := phrase
    exact .call hd (suffixes_of_rounds hrounds)
  | primary depth inner => exact (inner.mono (by omega) fun _ _ _ hT => hT).primaryFrom

theorem Reads.expression (depth : Nat) :
    Reads 1 anyKind (expression depth) fun _ => Derives .expression :=
  .rule .expression depth

/-! ## Statements -/

/-- The kind of token that a statement asks for at its end. -/
def isElse (kind : TokenKind) : Prop := kind = .else

/-- A statement. If it is open, no `else` comes next. -/
def Statement : Phrase Node := fun next ts node =>
  ∃ isOpen, Builds True (.statement isOpen) ts node ∧
    (isOpen = true → ∀ token ∈ next, token.kind ≠ .else)

/-- A declaration that is kept. -/
def Declared (ts : List Token) (node? : Option Node) : Prop :=
  ∃ node, node? = some node ∧ Builds True .declaration ts node

theorem Reads.optional {stop : TokenKind → Prop} {kind : TokenKind} {rule : Parse Node}
    {R : Phrase Node} (h : Reads 0 stop rule R) (hk : stop kind) (he : kind ≠ .eof) :
    Reads 0 stop (optional kind rule) fun next ts node =>
      (∃ token ts', ts = token :: ts' ∧ token.kind = kind ∧ R next ts' node) ∨
      (ts = [] ∧ node = .absent ∧ ∀ token ∈ next, token.kind ≠ kind) := by
  refine (Reads.accept (k := 0) (fun _ _ => h) (Reads.pure Node.absent) (by omega) (.inr ?_)).mono
    (by omega) ?_
  · intro kind' hk'
    simp only [decide_eq_true_eq] at hk'
    exact hk' ▸ hk
  · intro next ts node phrase
    rcases phrase with ⟨token, ts', rfl, ht, hR⟩ | ⟨⟨rfl, rfl⟩, hno⟩
    · exact .inl ⟨token, ts', rfl, by simpa using ht, hR⟩
    · refine .inr ⟨rfl, rfl, fun token ht hk' => ?_⟩
      exact hno token ht (hk' ▸ he) (by simpa using hk')

theorem Reads.expressionStatement {stop : TokenKind → Prop} {inner : Parse Node}
    (h : Reads 0 anyKind inner fun _ => Derives .expression) :
    Reads 1 stop (expressionStatement inner) fun _ => Simple :=
  (h.ended _ _ _ fun _ _ _ _ hd hk => Simple.mk hd hk).mono (by omega) fun _ _ _ hT => hT

theorem Reads.varDeclaration {stop : TokenKind → Prop} {inner : Parse Node}
    (h : Reads 0 anyKind inner fun _ => Derives .expression) :
    Reads 1 stop (varDeclaration inner) fun _ => Variable := by
  unfold Parse.varDeclaration
  refine ((Reads.expect _ _).bind (fun name => (h.optional trivial (by decide)).ended _ _
    (Node.var name) (S := fun ts node => name.kind = .identifier → Variable (name :: ts) node) ?_)
    (.inr fun _ hk => hk)).mono (by omega) ?_
  · intro next ts semicolon value phrase hs hn
    rcases phrase with ⟨equals, ts', rfl, he, hd⟩ | ⟨rfl, rfl, -⟩
    · exact .initialized hn he hd hs
    · exact .bare hn hs
  · intro next ts node phrase
    obtain ⟨-, name, ts', rfl, ⟨rfl, hn⟩, hT⟩ := phrase
    exact hT hn

theorem Reads.clause {inner : Parse Node} (h : Reads 0 anyKind inner fun _ => Derives .expression)
    (closing : TokenKind) : Reads 0 anyKind (clause closing inner) fun _ => Clause := by
  refine ((Reads.check closing).bind (m := 0) (T := fun _ _ => Clause) (fun empty => ?_)
    (.inr fun _ hk => hk)).mono (by omega) ?_
  · split
    · refine (Reads.pure none).mono (by omega) ?_
      intro next ts node? phrase
      obtain ⟨rfl, rfl⟩ := phrase
      exact .none
    · refine (h.bind (fun node => Reads.pure (some node)) (.inr fun _ hk => hk)).mono (by omega) ?_
      intro next ts node? phrase
      obtain ⟨ts', node, -, rfl, hd, rfl, rfl⟩ := phrase
      exact .some (by simpa using hd)
  · intro next ts node? phrase
    obtain ⟨-, -, ts', rfl, rfl, hT⟩ := phrase
    exact hT

theorem Reads.initializerClause {inner : Parse Node}
    (h : Reads 0 anyKind inner fun _ => Derives .expression) :
    Reads 1 anyKind (initializerClause inner) fun _ => Initializer := by
  unfold Parse.initializerClause
  refine Reads.mono (n := 1) (Reads.accept (k := 0)
    (T := fun token _ ts node? => Initializer (token :: ts) node?) (fun token hw => ?_)
    (h.expressionStatement.bind (fun node => Reads.pure (some node)) (.inr fun _ hk => hk))
    (by omega) (.inl (by omega))) (by omega) ?_
  · dsimp only
    split
    · next hk =>
      refine (Reads.pure none).mono (by omega) ?_
      intro next ts node? phrase
      obtain ⟨rfl, rfl⟩ := phrase
      exact .none hk
    · next hne =>
      have hk : token.kind = .var := by simpa [hne] using hw
      refine (h.varDeclaration.bind (fun node => Reads.pure (some node))
        (.inr fun _ hk => hk)).mono (by omega) ?_
      intro next ts node? phrase
      obtain ⟨ts', node, -, rfl, hv, rfl, rfl⟩ := phrase
      exact .declared hk (by simpa using hv)
  · intro next ts node? phrase
    rcases phrase with ⟨token, ts', rfl, -, hT⟩ | ⟨⟨ts', node, -, rfl, hs, rfl, rfl⟩, -⟩
    · exact hT
    · exact .simple (by simpa using hs)

/-- What stands in parentheses, and what follows. -/
theorem Reads.inParens {n m : Nat} {stop : TokenKind → Prop} {inner : Parse α} {R : List Token → α → Prop}
    {f : α → Parse β} {T : α → Phrase β} (h : Reads n anyKind inner fun _ => R)
    (hf : ∀ a, Reads m stop (f a) (T a)) (before after : String) :
    Reads 2 stop (Functor.discard (Parse.expect .leftParen before) >>= fun _ => inner >>= fun a =>
      Functor.discard (Parse.expect .rightParen after) >>= fun _ => f a) fun next ts b =>
      ∃ opening ts₁ closing ts₂ a, ts = opening :: (ts₁ ++ closing :: ts₂) ∧
        opening.kind = .leftParen ∧ R ts₁ a ∧ closing.kind = .rightParen ∧ T a next ts₂ b := by
  refine ((Reads.expect _ _).discard.bind (fun _ => h.bind (fun a =>
    (Reads.expect _ _).discard.bind (fun _ => hf a) (.inr fun _ hk => hk)) (.inl (by omega)))
    (.inr fun _ hk => hk)).mono (by omega) ?_
  intro next ts b phrase
  obtain ⟨-, -, -, rfl, ⟨opening, rfl, ho⟩, ts₁, a, -, rfl, hR, -, -, ts₂, rfl,
    ⟨closing, rfl, hc⟩, hT⟩ := phrase
  exact ⟨opening, ts₁, closing, ts₂, a, rfl, ho, hR, hc, hT⟩

theorem Reads.forRest {initial inner body : Parse Node} {keyword : Token}
    (hf : Reads 0 anyKind initial fun _ => Derives .expression)
    (hi : Reads 0 anyKind inner fun _ => Derives .expression)
    (hb : Reads 0 isElse body Statement) (hk : keyword.kind = .for) :
    Reads 0 isElse (forRest initial inner body) fun next ts node =>
      Statement next (keyword :: ts) node := by
  unfold Parse.forRest
  refine ((Reads.expect _ _).discard.bind (fun _ => hf.initializerClause.bind (m := 1)
    (fun initializer => (hi.clause _).bind (m := 1) (fun condition => ((Reads.expect _ _).discard.bind
    (fun _ => (hi.clause _).bind (m := 1) (fun increment => (Reads.expect _ _).discard.bind
    (fun _ => hb.bind (fun body => Reads.pure (forLoop initializer condition increment body))
    (.inr fun _ hk => hk)) (.inr fun _ hk => hk)) (.inl (by omega))) (.inr fun _ hk => hk)).mono
    (by omega) fun _ _ _ hT => hT) (.inl (by omega))) (.inl (by omega)))
    (.inr fun _ hk => hk)).mono (by omega) ?_
  intro next ts node phrase
  obtain ⟨-, -, -, rfl, ⟨opening, rfl, ho⟩, ts₁, initializer, -, rfl, h₁, ts₂, condition, -, rfl,
    h₂, -, -, -, rfl, ⟨semicolon, rfl, hs⟩, ts₃, increment, -, rfl, h₃, -, -, -, rfl,
    ⟨closing, rfl, hc⟩, ts₄, body, -, rfl, ⟨isOpen, hbody, hnext⟩, rfl, rfl⟩ := phrase
  refine ⟨isOpen, ?_, hnext⟩
  rw [forLoop_eq]
  simpa using Builds.forLoop hk ho h₁ h₂ hs h₃ hc hbody

theorem Reads.ifRest {inner branch : Parse Node} {keyword : Token}
    (hi : Reads 0 anyKind inner fun _ => Derives .expression)
    (hb : Reads 0 isElse branch Statement) (hk : keyword.kind = .if) :
    Reads 0 isElse (ifRest inner branch) fun next ts node =>
      Statement next (keyword :: ts) node := by
  refine (hi.inParens (fun condition => hb.bind (fun thenBranch =>
    (hb.optional rfl (by decide)).bind (fun elseBranch => Reads.pure
    (Node.ifElse condition thenBranch elseBranch)) (.inr fun _ hk => hk)) (.inr fun _ hk => hk))
    _ _).mono (by omega) ?_
  intro next ts node phrase
  obtain ⟨opening, ts₁, closing, -, condition, rfl, ho, hd, hc, ts₂, thenBranch, -, rfl,
    ⟨isOpen, hthen, hno⟩, -, elseBranch, -, rfl,
    ⟨word, ts₃, rfl, hw, isOpen', helse, hnext⟩ | ⟨rfl, rfl, hnext⟩, rfl, rfl⟩ := phrase
  · -- an open branch would have taken the `else` itself
    have hclosed : isOpen = false := Bool.eq_false_iff.mpr fun hopen => hno hopen word rfl hw
    refine ⟨isOpen', ?_, hnext⟩
    simpa using Builds.ifElse hk ho hd hc hthen (fun _ => hclosed) hw helse
  · exact ⟨true, by simpa using Builds.ifThen hk ho hd hc hthen, fun _ => hnext⟩

theorem Reads.whileRest {inner body : Parse Node} {keyword : Token}
    (hi : Reads 0 anyKind inner fun _ => Derives .expression)
    (hb : Reads 0 isElse body Statement) (hk : keyword.kind = .while) :
    Reads 0 isElse (whileRest inner body) fun next ts node =>
      Statement next (keyword :: ts) node := by
  refine (hi.inParens (fun condition => hb.bind (fun body => Reads.pure
    (Node.whileLoop condition body)) (.inr fun _ hk => hk)) _ _).mono (by omega) ?_
  intro next ts node phrase
  obtain ⟨opening, ts₁, closing, -, condition, rfl, ho, hd, hc, ts₂, body, -, rfl,
    ⟨isOpen, hbody, hnext⟩, rfl, rfl⟩ := phrase
  exact ⟨isOpen, by simpa using Builds.whileLoop hk ho hd hc hbody, by simpa using hnext⟩

/-- A statement that is not open may stand anywhere. -/
theorem Statement.closed {next : Option Token} {ts : List Token} {node : Node}
    (h : Builds True (.statement false) ts node) : Statement next ts node := ⟨false, h, nofun⟩

theorem Reads.printRest {inner : Parse Node} {keyword : Token}
    (h : Reads 0 anyKind inner fun _ => Derives .expression) (hk : keyword.kind = .print) :
    Reads 0 isElse (printRest inner) fun next ts node => Statement next (keyword :: ts) node :=
  (h.ended _ _ _ (S := fun ts node => Builds True (.statement false) (keyword :: ts) node)
    fun _ _ _ _ hd hs => .print hk hd hs).mono (by omega) fun _ _ _ hT => .closed hT

theorem Reads.returnRest {inner : Parse Node} {keyword : Token}
    (h : Reads 0 anyKind inner fun _ => Derives .expression) (hk : keyword.kind = .return) :
    Reads 0 isElse (returnRest inner keyword) fun next ts node =>
      Statement next (keyword :: ts) node :=
  ((h.clause _).ended _ _ _ (S := fun ts node => Builds True (.statement false) (keyword :: ts) node)
    fun _ _ _ _ hd hs => .giveBack hk hd hs).mono (by omega) fun _ _ _ hT => .closed hT

/-! ### Declarations -/

/-- What one more declaration reads. -/
def DeclarationRound (done : List Node) (ts : List Token) (done' : List Node) : Prop :=
  ∃ node, done' = node :: done ∧ Builds True .declaration ts node

theorem Reads.anotherDeclaration {ended : Parse Bool} {declaration : Parse (Option Node)}
    (he : Reads 0 anyKind ended fun _ ts _ => ts = [])
    (hd : Reads 0 isElse declaration fun _ => Declared) (done : List Node) :
    Reads 0 anyKind (anotherDeclaration ended declaration done) fun _ =>
      OneRound DeclarationRound done := by
  refine (he.bind (m := 0) (T := fun _ _ => OneRound DeclarationRound done) (fun stop => ?_)
    (.inr fun _ hk => hk)).mono (by omega) ?_
  · split
    · exact (Reads.pure none).mono (by omega) fun next ts done' h => by
        obtain ⟨rfl, rfl⟩ := h
        rfl
    · refine (hd.bind (fun node? => Reads.pure (some (node?.toList ++ done)))
        (.inr fun _ _ => trivial)).mono (by omega) ?_
      intro next ts done' phrase
      obtain ⟨ts', node?, -, rfl, ⟨node, rfl, hb⟩, rfl, rfl⟩ := phrase
      exact ⟨node, rfl, by simpa using hb⟩
  · intro next ts done' phrase
    obtain ⟨-, -, ts', rfl, rfl, hT⟩ := phrase
    exact hT

theorem declarations_of_rounds {done done' : List Node} {ts : List Token}
    (h : Rounds DeclarationRound done ts done') :
    ∃ nodes, done' = nodes.reverse ++ done ∧ Builds True .declarations ts (.sequence nodes) := by
  induction h with
  | done => exact ⟨[], rfl, .none⟩
  | round hround _ ih =>
    obtain ⟨node, rfl, hb⟩ := hround
    obtain ⟨nodes, rfl, hbs⟩ := ih
    exact ⟨node :: nodes, by simp, .more hb hbs⟩

theorem Reads.blockRest {stop : TokenKind → Prop} {declaration : Parse (Option Node)}
    (h : Declares declaration) (hd : Reads 0 isElse declaration fun _ => Declared) :
    Reads 1 stop (blockRest declaration) fun _ ts node => ∃ ts' closing, ts = ts' ++ [closing] ∧
      closing.kind = .rightBrace ∧ Builds True .declarations ts' node := by
  refine ((Reads.repeatWhile (Proceeds.inBlock h) (Reads.blockEnds.anotherDeclaration hd) []).ended _ _
    (fun nodes => Node.sequence nodes.reverse) fun next ts closing done hrounds hc => ?_).mono
    (by omega) fun _ _ _ hT => hT
  obtain ⟨nodes, rfl, hb⟩ := declarations_of_rounds hrounds
  exact ⟨ts, closing, rfl, hc, by simpa using hb⟩

theorem Reads.functionRest {stop : TokenKind → Prop} {declaration : Parse (Option Node)}
    {keyword : Token} (h : Declares declaration) (hd : Reads 0 isElse declaration fun _ => Declared)
    (hk : keyword.kind = .fun) :
    Reads 0 stop (functionRest declaration) fun _ ts node =>
      Builds True .declaration (keyword :: ts) node := by
  have names := ((Reads.expect .identifier "Expect parameter name.").less.items .rightParen
    (some "Can't have more than 255 parameters."))
  unfold Parse.functionRest
  refine ((Reads.expect _ _).bind (fun name => names.inParens (fun params =>
    (Reads.expect _ _).discard.bind (fun _ => (Reads.blockRest h hd).bind (fun body =>
    Reads.pure (Node.function name params body)) (.inr fun _ hk => hk)) (.inr fun _ hk => hk)) _ _)
    (.inr fun _ hk => hk)).mono (by omega) ?_
  intro next ts node phrase
  obtain ⟨-, name, -, rfl, ⟨rfl, hn⟩, opening, ts₁, closing, -, params, rfl, ho, ⟨hp, hmax⟩, hc,
    -, -, -, rfl, ⟨brace, rfl, hb⟩, -, body, -, rfl, ⟨ts₂, ending, rfl, he, hbody⟩, rfl,
    rfl⟩ := phrase
  simpa using Builds.function hk hn ho hp (hmax rfl) hc hb hbody he

theorem Reads.statementFrom {initial inner body : Parse Node} {declaration : Parse (Option Node)}
    (hf : Reads 0 anyKind initial fun _ => Derives .expression)
    (hi : Reads 0 anyKind inner fun _ => Derives .expression)
    (hb : Reads 0 isElse body Statement) (h : Declares declaration)
    (hd : Reads 0 isElse declaration fun _ => Declared) :
    Reads 1 isElse (statementFrom initial inner body declaration) Statement := by
  unfold Parse.statementFrom
  refine Reads.mono (n := 1) (Reads.accept (k := 0)
    (T := fun keyword next ts node => Statement next (keyword :: ts) node) (fun keyword hw => ?_)
    hi.expressionStatement (by omega) (.inl (by omega))) (by omega) ?_
  · dsimp only
    split
    · next hk => exact hf.forRest hi hb hk
    · next hk => exact hi.ifRest hb hk
    · next hk => exact hi.printRest hk
    · next hk => exact hi.returnRest hk
    · next hk => exact hi.whileRest hb hk
    · next h₁ h₂ h₃ h₄ h₅ =>
      have hk : keyword.kind = .leftBrace := by
        simp only [leadsStatement, Bool.or_eq_true, decide_eq_true_eq] at hw
        grind
      refine ((Reads.blockRest h hd).bind (fun nodes => Reads.pure (Node.block nodes))
        (.inr fun _ hk => hk)).mono (by omega) ?_
      intro next ts node phrase
      obtain ⟨-, nodes, -, rfl, ⟨ts', closing, rfl, hc, hbs⟩, rfl, rfl⟩ := phrase
      exact .closed (by simpa using Builds.block hk hbs hc)
  · intro next ts node phrase
    rcases phrase with ⟨keyword, ts', rfl, -, hT⟩ | ⟨hs, -⟩
    · exact hT
    · exact .closed (.simple hs)

theorem Reads.declarationFrom {inner statement : Parse Node} {declaration : Parse (Option Node)}
    (hi : Reads 0 anyKind inner fun _ => Derives .expression)
    (hs : Reads 1 isElse statement Statement) (h : Declares declaration)
    (hd : Reads 0 isElse declaration fun _ => Declared) :
    Reads 1 isElse (declarationFrom inner statement declaration) fun _ =>
      Builds True .declaration := by
  unfold Parse.declarationFrom
  refine Reads.mono (n := 1) (Reads.accept (k := 0)
    (T := fun keyword _ ts node => Builds True .declaration (keyword :: ts) node)
    (fun keyword hw => ?_) hs (by omega) (.inl (by omega))) (by omega) ?_
  · dsimp only
    split
    · next hk => exact Reads.functionRest h hd hk
    · next hne =>
      have hk : keyword.kind = .var := by simpa [hne] using hw
      exact hi.varDeclaration.mono (by omega) fun _ _ _ hv => .declared hk hv
  · intro next ts node phrase
    rcases phrase with ⟨keyword, ts', rfl, -, hT⟩ | ⟨⟨isOpen, hT, -⟩, -⟩
    · exact hT
    · exact .statement hT

theorem Reads.recovering {n : Nat} {stop : TokenKind → Prop} {p : Parse Node} {R : Phrase Node}
    (h : Reads n stop p R) :
    Reads 0 stop (recovering p) fun next ts node? => ∃ node, node? = some node ∧ R next ts node := by
  refine ⟨h.less.toAdvances.recovering, fun {c node? c'} hc hr he => ?_⟩
  cases node? with
  | none => exact absurd he (recovering_none h.less.toAdvances hr)
  | some node =>
    have hp : p c = .ok node c' := by
      unfold Parse.recovering at hr
      split at hr
      · next hp => cases hr; exact hp
      · cases hr
      · cases hr
    obtain ⟨ts, hts, hR, again⟩ := h.reads hc hp he
    refine ⟨ts, hts, ⟨node, rfl, hR⟩, fun rest finish reported hf ha => ?_⟩
    unfold Parse.recovering
    rw [again rest finish reported hf ha]

theorem reads_statements (depth : Nat) :
    (Reads 0 isElse (declaration depth) fun _ => Declared) ∧
      Reads 1 isElse (statement depth) Statement := by
  have inner : ∀ depth, Reads 0 anyKind (expression depth) fun _ => Derives .expression :=
    fun depth => (Reads.expression depth).less
  refine statement_induction (P := fun depth => Reads 0 isElse (declaration depth) fun _ => Declared)
    (Q := fun depth => Reads 1 isElse (statement depth) Statement) (fun depth h => ?_)
    (fun depth h => ?_) (fun depth hs hd => ?_) (fun depth hs hd => ?_) depth
  · rw [h]
    exact .tooDeep
  · rw [h]
    exact .tooDeep
  · exact ((inner (depth + 5)).declarationFrom hs (.declaration _) hd).recovering
  · exact .statementFrom (inner depth) (inner (depth + 1)) hs.less (.declaration _) hd

theorem Reads.declaration (depth : Nat) :
    Reads 0 isElse (declaration depth) fun _ => Declared :=
  (reads_statements depth).1

/-! ## Programs -/

theorem Reads.atEnd : Reads 0 anyKind atEnd fun _ ts _ => ts = [] := by
  refine look (fun next => next.all fun token => decide (token.kind = .eof)) .atEnd fun c hc => ?_
  obtain ⟨rest, finish, reported⟩ := c
  cases rest with
  | nil => simp [Parse.atEnd, Cursor.atEnd, Cursor.peek, show finish.kind = .eof from hc]
  | cons token rest => rfl

/-- The loop over a program ends where the program ends. -/
theorem program_ends {depth : Nat} {trees : List Node} {c c' : Cursor} (hc : c.finish.kind = .eof)
    (h : program depth c = .ok trees c') : c'.atEnd = true := by
  obtain ⟨done, c₁, h₁, h₂⟩ := bind_ok h
  obtain ⟨-, rfl⟩ := pure_ok h₂
  obtain ⟨c₀, h₀⟩ := ((Proceeds.inProgram (.declaration depth)).repeats [] hc).last h₁
  obtain ⟨ended, c₂, he, hs⟩ := bind_ok h₀
  cases he
  split at hs
  · next hend =>
    obtain ⟨-, rfl⟩ := pure_ok hs
    exact hend
  · obtain ⟨node?, c₃, -, hn⟩ := bind_ok hs
    cases hn

/-- A rule that has come to the end has read everything. -/
theorem rest_of_atEnd {c c' : Cursor} (ht : ∀ token ∈ c.rest, token.kind ≠ .eof) (hl : c.Leads c')
    (he : c'.atEnd = true) : c'.rest = [] := by
  cases hrest : c'.rest with
  | nil => rfl
  | cons token rest =>
    have hk : token.kind = .eof := by simpa [Cursor.atEnd, Cursor.peek, hrest] using he
    have hmem : token ∈ c.rest := hl.rest.mem (by rw [hrest]; exact List.mem_cons_self)
    exact absurd hk (ht token hmem)

/-- Whatever parses without a report derives from the grammar. -/
theorem program_sound {depth : Nat} {tokens : List Token} {finish : Token} {trees : List Node}
    {c : Cursor} (hf : finish.kind = .eof) (ht : ∀ token ∈ tokens, token.kind ≠ .eof)
    (h : program depth ⟨tokens, finish, []⟩ = .ok trees c) (hr : c.reported = []) :
    Program True tokens trees := by
  have ended := program_ends hf h
  obtain ⟨done, c₁, h₁, h₂⟩ := bind_ok h
  obtain ⟨rfl, rfl⟩ := pure_ok h₂
  have rounds := Reads.repeatWhile (Proceeds.inProgram (.declaration depth))
    (Reads.atEnd.anotherDeclaration (.declaration depth)) []
  obtain ⟨ts, hts, hrounds, -⟩ := rounds.reads hf h₁ hr
  obtain ⟨nodes, rfl, hb⟩ := declarations_of_rounds hrounds
  have hnil : c₁.rest = [] := rest_of_atEnd ht (rounds.ok h₁).1 ended
  simp only [hnil, List.append_nil] at hts
  subst hts
  simpa [Program] using hb

end GameScript.Parse
