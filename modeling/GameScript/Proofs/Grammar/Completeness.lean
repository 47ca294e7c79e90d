import GameScript.Proofs.Grammar.Basic
import GameScript.Proofs.Grammar.Progress

/-! # The parser reads every phrase of the grammar

`Consumes p ts a rest` says that the rule `p` reads the tokens `ts` before `rest`, gives `a` and
reports nothing. A rule consumes each of its phrases, with sixteen open steps for every token, as
long as what comes next cannot continue the phrase. Loops are followed round by round: a chain of
operators or suffixes takes the loop from its first operand to the tree of the whole chain, wherever
the loop then ends. -/

namespace GameScript.Parse

open Grammar

variable {α β : Type}

/-- The rule reads some tokens before a rest, whatever was reported before. -/
def Consumes (p : Parse α) (ts : List Token) (a : α) (rest : List Token) : Prop :=
  ∀ finish reported, finish.kind = .eof →
    p ⟨ts ++ rest, finish, reported⟩ = .ok a ⟨rest, finish, reported⟩

/-- The kind of the next token, if there is one, is not among those given. -/
def Avoids (kinds : TokenKind → Prop) (rest : List Token) : Prop :=
  ∀ token ∈ rest.head?, ¬ kinds token.kind

theorem Avoids.cons {kinds : TokenKind → Prop} {token : Token} {rest : List Token}
    (h : ¬ kinds token.kind) : Avoids kinds (token :: rest) := by
  intro _ h
  obtain ⟨⟩ := h
  exact h

theorem Avoids.nil {kinds : TokenKind → Prop} : Avoids kinds [] := nofun

theorem Avoids.mono {kinds kinds' : TokenKind → Prop} {rest : List Token} (h : Avoids kinds rest)
    (hk : ∀ kind, kinds' kind → kinds kind) : Avoids kinds' rest :=
  fun token ht hs => h token ht (hk _ hs)

/-- There is a next token, and its kind is among those given. -/
def Begins (starts : TokenKind → Bool) (ts : List Token) : Prop :=
  ∃ token ts', ts = token :: ts' ∧ starts token.kind

theorem Begins.append {starts : TokenKind → Bool} {ts : List Token} (h : Begins starts ts)
    (ts' : List Token) : Begins starts (ts ++ ts') := by
  obtain ⟨token, tail, rfl, hs⟩ := h
  exact ⟨token, tail ++ ts', rfl, hs⟩

theorem Begins.mono {starts starts' : TokenKind → Bool} {ts : List Token} (h : Begins starts ts)
    (hs : ∀ kind, starts kind → starts' kind) : Begins starts' ts := by
  obtain ⟨token, tail, rfl, hk⟩ := h
  exact ⟨token, tail, rfl, hs _ hk⟩

theorem Begins.avoids {starts : TokenKind → Bool} {kinds : TokenKind → Prop} {ts : List Token}
    (h : Begins starts ts) (hd : ∀ kind, starts kind → ¬ kinds kind) : Avoids kinds ts := by
  obtain ⟨token, tail, rfl, hk⟩ := h
  exact .cons (hd _ hk)

namespace Consumes

variable {p : Parse α} {ts ts' rest : List Token} {a : α} {b : β}

theorem pure (a : α) (rest : List Token) : Consumes (pure a) [] a rest := fun _ _ _ => rfl

theorem bind {f : α → Parse β} (hp : Consumes p ts a (ts' ++ rest)) (hf : Consumes (f a) ts' b rest) :
    Consumes (p >>= f) (ts ++ ts') b rest := by
  intro finish reported hfin
  rw [List.append_assoc, bind_eq_of_ok (hp finish reported hfin)]
  exact hf finish reported hfin

theorem map {f : α → Parse β} (hp : Consumes p ts a rest) (hf : Consumes (f a) [] b rest) :
    Consumes (p >>= f) ts b rest := by
  have := bind (hp : Consumes p ts a ([] ++ rest)) hf
  rwa [List.append_nil] at this

/-- A rule that reads nothing, and what follows. -/
theorem look {f : α → Parse β} (hp : Consumes p [] a (ts ++ rest)) (hf : Consumes (f a) ts b rest) :
    Consumes (p >>= f) ts b rest := bind hp hf

/-- A rule that reads one token, and what follows. -/
theorem head {token : Token} {f : α → Parse β} (hp : Consumes p [token] a (ts ++ rest))
    (hf : Consumes (f a) ts b rest) : Consumes (p >>= f) (token :: ts) b rest := bind hp hf

theorem accepted {wanted : TokenKind → Bool} {token : Token} (hw : wanted token.kind)
    (he : token.kind ≠ .eof) (rest : List Token) :
    Consumes (accept wanted) [token] (some token) rest := by
  intro finish reported _
  unfold Parse.accept
  simp [he, hw, Cursor.advance]

theorem refused {wanted : TokenKind → Bool} (hn : Avoids (wanted · = true) rest) :
    Consumes (accept wanted) [] none rest := by
  intro finish reported _
  unfold Parse.accept
  rw [List.nil_append]
  split
  · rfl
  · next token tail hr =>
    have hno := hn token (by simp only at hr; rw [hr]; rfl)
    simp [hno]

/-- A token that is wanted is read. -/
theorem token {wanted : TokenKind → Bool} {f : Option Token → Parse β} {token : Token}
    (hw : wanted token.kind) (he : token.kind ≠ .eof) (hf : Consumes (f (some token)) ts b rest) :
    Consumes (accept wanted >>= f) (token :: ts) b rest := head (accepted hw he _) hf

/-- A token that is not wanted is left to the other way. -/
theorem otherwise {wanted : TokenKind → Bool} {f : Option Token → Parse β}
    (hn : Avoids (wanted · = true) (ts ++ rest)) (hf : Consumes (f none) ts b rest) :
    Consumes (accept wanted >>= f) ts b rest := look (refused hn) hf

theorem expect {kind : TokenKind} {token : Token} (hk : token.kind = kind) (he : kind ≠ .eof)
    (message : String) (rest : List Token) : Consumes (expect kind message) [token] token rest :=
  .token (by simpa using hk) (hk ▸ he) (.pure token rest)

/-- A token of a kind, and what follows. -/
theorem discard {kind : TokenKind} {message : String} {f : Parse β} {token : Token}
    (hk : token.kind = kind) (he : kind ≠ .eof) (hf : Consumes f ts b rest) :
    Consumes (Functor.discard (Parse.expect kind message) >>= fun _ => f) (token :: ts) b rest :=
  head ((expect hk he message _).map (.pure () _)) hf

/-- A look at a token of the kind. -/
theorem check {kind : TokenKind} (hr : Begins (· = kind) rest) (he : kind ≠ .eof) :
    Consumes (check kind) [] true rest := by
  obtain ⟨token, tail, rfl, hk⟩ := hr
  have hk : token.kind = kind := by simpa using hk
  intro finish reported _
  simp [Parse.check, Cursor.atEnd, Cursor.peek, hk, he]

/-- A look at a token of another kind, or at the end. -/
theorem checkNot {kind : TokenKind} (hr : Avoids (· = kind) rest) :
    Consumes (Parse.check kind) [] false rest := by
  intro finish reported hf
  cases rest with
  | nil => simp [Parse.check, Cursor.atEnd, Cursor.peek, hf]
  | cons token tail => simp [Parse.check, Cursor.atEnd, Cursor.peek, hr token rfl]

end Consumes

/-- A loop ends where the next token is not wanted. -/
theorem Consumes.loopEnd {σ : Type} {step : σ → Parse (Option σ)} (h : Proceeds step) {state : σ}
    {rest : List Token} (hs : Consumes (step state) [] none rest) :
    Consumes (repeatWhile step state) [] state rest := by
  intro finish reported hf
  rw [repeatWhile_eq h state hf, bind_eq_of_ok (hs finish reported hf)]
  rfl

/-- A loop takes a round and goes on. -/
theorem Consumes.loopRound {σ : Type} {step : σ → Parse (Option σ)} (h : Proceeds step)
    {state next last : σ} {ts ts' rest : List Token}
    (hs : Consumes (step state) ts (some next) (ts' ++ rest))
    (hl : Consumes (repeatWhile step next) ts' last rest) :
    Consumes (repeatWhile step state) (ts ++ ts') last rest := by
  intro finish reported hf
  rw [repeatWhile_eq h state hf, List.append_assoc, bind_eq_of_ok (hs finish reported hf)]
  exact hl finish reported hf

/-! ## How phrases begin -/

/-- The kinds of token that can begin an expression. -/
def startsExpression (kind : TokenKind) : Bool :=
  startsPrimary kind || kind = .bang || kind = .minus

/-- How a phrase begins. Loops and lists may be empty. -/
def Starts : Symbol → List Token → Prop
  | .expression, ts | .operators _, ts | .unary, ts | .items, ts => Begins startsExpression ts
  | .call, ts | .primary, ts => Begins startsPrimary ts
  | .chain _ _, _ | .suffixes _, _ | .list, _ => True

theorem starts_operand {level : Level} {ts : List Token} (h : Starts (operand level) ts) :
    Begins startsExpression ts := by
  cases level <;> exact h

theorem startsExpression_of_primary {kind : TokenKind} (h : startsPrimary kind) :
    startsExpression kind := by
  simp [startsExpression, h]

theorem derives_starts {symbol : Symbol} {ts : List Token} {node : Node}
    (h : Derives symbol ts node) : Starts symbol ts := by
  have one : ∀ {token : Token} {ts : List Token}, startsPrimary token.kind →
      Begins startsPrimary (token :: ts) := fun hk => ⟨_, _, rfl, hk⟩
  have call : ∀ {ts : List Token}, Begins startsPrimary ts → Begins startsExpression ts :=
    fun h => h.mono fun _ => startsExpression_of_primary
  induction h with
  | assignName hn _ _ _ => exact call (one (by simp [startsPrimary, hn]))
  | assignElement _ _ _ _ _ _ ih _ _ => exact (call ih).append _
  | value _ ih => exact ih
  | operators _ _ ih _ => exact (starts_operand ih).append _
  | chainEnd => trivial
  | chainStep => trivial
  | sign ho _ _ => exact ⟨_, _, rfl, by rcases ho with ho | ho <;> simp [startsExpression, ho]⟩
  | unsigned _ ih => exact call ih
  | call _ _ ih _ => exact Begins.append ih _
  | suffixesEnd => trivial
  | suffixCall => trivial
  | suffixIndex => trivial
  | falsehood hk => exact one (by simp [startsPrimary, hk])
  | truth hk => exact one (by simp [startsPrimary, hk])
  | nothing hk => exact one (by simp [startsPrimary, hk])
  | constant hk => exact one (by rcases hk with hk | hk <;> simp [startsPrimary, hk])
  | reference hk => exact one (by simp [startsPrimary, hk])
  | grouping hk _ _ _ => exact one (by simp [startsPrimary, hk])
  | array hk _ _ _ => exact one (by simp [startsPrimary, hk])
  | item _ ih => exact ih
  | moreItems _ _ _ ih _ => exact Begins.append ih _
  | noItems => trivial
  | someItems => trivial

/-! ## Items -/

section Items

variable {item : Parse α} {R : List Token → α → Prop} {crowded : Option String} {closing : TokenKind}
  {n : Nat}

/-- An item can be read before a comma and before the closing token. -/
def Itemized (item : Parse α) (closing : TokenKind) (ts : List Token) (a : α) : Prop :=
  Begins (fun kind => kind ≠ closing) ts ∧
    ∀ rest, Begins (fun kind => kind = .comma || kind = closing) rest → Consumes item ts a rest

theorem Consumes.itemAfter {ts rest : List Token} {a : α} {done : List α}
    (h : Consumes item ts a rest) (hm : crowded.isSome → done.length < maxArguments) :
    Consumes (itemAfter crowded item done) ts (a :: done) rest := by
  have quiet : Consumes (complainIfCrowded crowded done.length) [] () (ts ++ rest) := by
    intro finish reported _
    unfold complainIfCrowded
    split
    · rw [if_neg (by have := hm rfl; omega)]
      rfl
    · rfl
  exact quiet.bind (h.map (.pure _ _))

theorem Consumes.anotherItem {comma : Token} {ts rest : List Token} {a : α} {done : List α}
    (hk : comma.kind = .comma) (h : Consumes item ts a rest)
    (hm : crowded.isSome → done.length < maxArguments) :
    Consumes (anotherItem crowded item done) (comma :: ts) (some (a :: done)) rest :=
  .token (by simp [hk]) (by simp [hk]) ((h.itemAfter hm).map (.pure _ _))

theorem Consumes.lastItem (hi : Advances 0 item) {rest : List Token} (hr : Avoids (· = .comma) rest)
    (crowded : Option String) (done : List α) :
    Consumes (repeatWhile (Parse.anotherItem crowded item) done) [] done rest :=
  .loopEnd (.anotherItem hi crowded)
    (.otherwise (by simpa using hr) (.pure none rest))

theorem Consumes.moreItems (hi : Advances 0 item) {ts : List Token} {as : List α}
    (h : Separated (Itemized item closing) ts as) {rest : List Token}
    (hr : Begins (· = closing) rest) (hc : closing ≠ .comma) {comma : Token}
    (hk : comma.kind = .comma) (done : List α)
    (hm : crowded.isSome → done.length + as.length ≤ maxArguments) :
    Consumes (repeatWhile (Parse.anotherItem crowded item) done) (comma :: ts) (as.reverse ++ done)
      rest := by
  induction h generalizing comma done with
  | @one ts a h =>
    have hm' : crowded.isSome → done.length < maxArguments := fun hs => by
      have := hm hs
      rw [List.length_singleton] at this
      omega
    have round := h.2 rest (hr.mono (by simp +contextual))
    have last := lastItem hi (hr.avoids (by simp +contextual [hc])) crowded (a :: done)
    simpa using loopRound (.anotherItem hi crowded) (.anotherItem hk round hm') last
  | @more comma' ts ts' a as h hk' _ ih =>
    have hm' : crowded.isSome → done.length + 1 + as.length ≤ maxArguments := fun hs => by
      have := hm hs
      rw [List.length_cons] at this
      omega
    have round := h.2 (comma' :: ts' ++ rest) ⟨comma', _, rfl, by simp [hk']⟩
    have more := ih hk' (a :: done) hm'
    simpa using loopRound (.anotherItem hi crowded) (.anotherItem hk round fun hs => by
      have := hm' hs
      omega) more

theorem Consumes.items (hi : Advances 0 item) {ts : List Token} {as : List α}
    (h : Listed (Itemized item closing) ts as) {rest : List Token}
    (hr : Begins (· = closing) rest) (hc : closing ≠ .comma) (he : closing ≠ .eof)
    (hm : crowded.isSome → as.length ≤ maxArguments) :
    Consumes (items closing crowded item) ts as rest := by
  cases h with
  | none => exact look (.check hr he) (.pure [] rest)
  | some h =>
    have hb : Begins (· ≠ closing) ts := by
      cases h with
      | one h => exact h.1
      | more h _ _ => exact h.1.append _
    refine look (.checkNot ((hb.append rest).avoids (by simp))) ?_
    cases h with
    | @one _ a h =>
      have first := h.2 rest (hr.mono (by simp +contextual))
      have last := lastItem hi (hr.avoids (by simp +contextual [hc])) crowded [a]
      exact map (first.itemAfter fun _ => Nat.zero_lt_succ _) (last.map (.pure _ _))
    | @more comma ts ts' a as h hk hs =>
      have first := h.2 (comma :: ts' ++ rest) ⟨comma, _, rfl, by simp [hk]⟩
      have more := moreItems hi hs hr hc hk [a] fun hs => by
        have := hm hs
        rw [List.length_cons] at this
        simp only [List.length_singleton]
        omega
      have hrev : a :: as = (as.reverse ++ [a]).reverse := by simp
      rw [hrev]
      exact bind (first.itemAfter fun _ => Nat.zero_lt_succ _) (more.map (.pure _ _))

end Items

/-! ## Expressions -/

/-- The place of a level, from the loosest to the tightest. -/
def rank : Level → Nat
  | .or => 0
  | .and => 1
  | .equality => 2
  | .comparison => 3
  | .term => 4
  | .factor => 5

/-- The kinds of token that continue a phrase of operators from a place on. -/
def Continues (place : Nat) (kind : TokenKind) : Prop :=
  kind = .leftParen ∨ kind = .leftBracket ∨ ∃ level, place ≤ rank level ∧ level.has kind

theorem Continues.mono {place place' : Nat} {kind : TokenKind} (h : Continues place' kind)
    (hp : place ≤ place') : Continues place kind :=
  h.imp_right (.imp_right fun ⟨level, hr, hk⟩ => ⟨level, Nat.le_trans hp hr, hk⟩)

/-- An operator of a level does not continue its operands. -/
theorem not_continues_of_has {level : Level} {kind : TokenKind} (h : level.has kind) :
    ¬ Continues (rank level + 1) kind := by
  intro h
  rcases h with rfl | rfl | ⟨level', hr, hk⟩
  · cases level <;> simp [Level.has] at h
  · cases level <;> simp [Level.has] at h
  · cases level <;> cases level' <;> first
      | (simp [rank] at hr; done)
      | (simp only [Level.has, Bool.or_eq_true, decide_eq_true_eq] at h hk; grind)

/-- The kinds of token that end every expression. -/
def endsExpression (kind : TokenKind) : Bool :=
  kind = .rightParen || kind = .rightBracket || kind = .comma || kind = .semicolon

theorem not_continues_of_ends {kind : TokenKind} (h : kind = .equal ∨ endsExpression kind) :
    ¬ Continues 0 kind := by
  intro h
  rcases h with rfl | rfl | ⟨level, -, hk⟩
  · simp [endsExpression] at h
  · simp [endsExpression] at h
  · simp only [endsExpression, Bool.or_eq_true, decide_eq_true_eq] at h
    cases level <;> simp only [Level.has, Bool.or_eq_true, decide_eq_true_eq] at hk <;> grind

/-- The open steps that the operands of a level need beside those for their tokens. -/
def operandSteps : Level → Nat
  | .or => 11
  | .and => 10
  | .equality => 8
  | .comparison => 6
  | .term => 4
  | .factor => 2

/-- The rest of the tokens does not continue an expression. -/
def Finished (rest : List Token) : Prop :=
  Avoids (fun kind => kind = .equal ∨ Continues 0 kind) rest

theorem Begins.finished {kinds : TokenKind → Bool} {rest : List Token} (h : Begins kinds rest)
    (hk : ∀ kind, kinds kind → endsExpression kind) : Finished rest := by
  refine h.avoids fun kind hkind => ?_
  intro h
  rcases h with rfl | hc
  · simpa [endsExpression] using hk _ hkind
  · exact not_continues_of_ends (.inr (hk _ hkind)) hc

theorem Finished.closed {token : Token} (rest : List Token) (h : endsExpression token.kind) :
    Finished (token :: rest) :=
  Begins.finished ⟨token, rest, rfl, h⟩ fun _ hk => hk

/-- The rules read an expression wherever it can end. -/
def Expressed (ts : List Token) (node : Node) : Prop :=
  Begins startsExpression ts ∧ ∀ depth rest, 16 * ts.length + 13 ≤ depth → Finished rest →
    Consumes (assignment depth) ts node rest

/-- The loop over the suffixes of an expression. -/
def suffixLoop (depth : Nat) (target : Node) : Parse Node :=
  repeatWhile (anotherSuffix (expression depth) (expression (depth + 1))) target

/-- The loop over the operators of a level. -/
def operatorLoop (level : Level) (depth : Nat) (left : Node) : Parse Node :=
  repeatWhile (anotherOperator level ((Rule.operand level).at depth)) left

/-- The rules read a phrase. The phrases of loops take a loop from one tree to another. -/
def Complete : Symbol → List Token → Node → Prop
  | .expression, ts, node => Expressed ts node
  | .operators level, ts, node => ∀ depth rest, 16 * ts.length + operandSteps level + 2 ≤
      depth + Rule.spare level → Avoids (Continues (rank level)) rest →
      Consumes (operators level depth) ts node rest
  | .chain level left, ts, node => ∀ depth ts' last rest, 16 * ts.length + operandSteps level ≤ depth →
      Avoids (Continues (rank level + 1)) (ts' ++ rest) →
      Consumes (operatorLoop level depth node) ts' last rest →
      Consumes (operatorLoop level depth left) (ts ++ ts') last rest
  | .unary, ts, node => ∀ depth rest, 16 * ts.length + 2 ≤ depth → Avoids (Continues 6) rest →
      Consumes (unary depth) ts node rest
  | .call, ts, node => ∀ depth ts' last rest, 16 * ts.length ≤ depth + 1 →
      Consumes (suffixLoop depth node) ts' last rest →
      Consumes (suffixed (depth + 2)) (ts ++ ts') last rest
  | .suffixes target, ts, node => ∀ depth ts' last rest, 16 * ts.length ≤ depth + 1 →
      Consumes (suffixLoop depth node) ts' last rest →
      Consumes (suffixLoop depth target) (ts ++ ts') last rest
  | .primary, ts, node => ∀ depth rest, 16 * ts.length ≤ depth → Consumes (primary depth) ts node rest
  | .items, ts, tree => ∃ nodes, tree = .sequence nodes ∧ Separated Expressed ts nodes
  | .list, ts, tree => ∃ nodes, tree = .sequence nodes ∧ Listed Expressed ts nodes

/-- The operands of a level, by the rule that the level calls. -/
theorem complete_operand {level : Level} {ts : List Token} {node : Node}
    (h : Complete (operand level) ts node) {depth : Nat} {rest : List Token}
    (hd : 16 * ts.length + operandSteps level ≤ depth)
    (hr : Avoids (Continues (rank level + 1)) rest) :
    Consumes ((Rule.operand level).at depth) ts node rest := by
  cases level <;> exact h depth rest (by simp [operandSteps, Rule.spare] at hd ⊢; omega) hr

theorem Proceeds.operatorLoop (level : Level) (depth : Nat) :
    Proceeds (Parse.anotherOperator level ((Rule.operand level).at depth)) :=
  .anotherOperator ((Advances.rule _ depth).mono (by omega)) level

theorem Proceeds.suffixLoop (depth : Nat) :
    Proceeds (Parse.anotherSuffix (expression depth) (expression (depth + 1))) :=
  .anotherSuffix ((Advances.expression _).mono (by omega)) ((Advances.expression _).mono (by omega))

/-- The loop over operators ends where no operator of the level comes next. -/
theorem Consumes.noOperator {level : Level} {rest : List Token} (depth : Nat) (left : Node)
    (hr : Avoids (level.has · = true) rest) : Consumes (operatorLoop level depth left) [] left rest :=
  .loopEnd (.operatorLoop level depth) (.otherwise hr (.pure none rest))

theorem Consumes.noSuffix {rest : List Token} (depth : Nat) (target : Node)
    (hr : Avoids (Continues 6) rest) : Consumes (suffixLoop depth target) [] target rest := by
  refine .loopEnd (.suffixLoop depth) (.otherwise (hr.mono fun kind hk => ?_) (.pure none rest))
  have : kind = .leftParen ∨ kind = .leftBracket := by simpa using hk
  exact this.imp_right .inl

theorem Consumes.operators {level : Level} {depth : Nat} {ts ts' rest : List Token}
    {left node : Node} (h : Consumes ((Rule.operand level).at (depth + Rule.spare level)) ts left (ts' ++ rest))
    (hl : Consumes (operatorLoop level (depth + Rule.spare level) left) ts' node rest) :
    Consumes (operators level (depth + 2)) (ts ++ ts') node rest := by
  rw [operators_eq]
  exact h.bind hl

/-- An operand by itself is a phrase of its level. -/
theorem Consumes.operand (level : Level) (depth : Nat) {ts rest : List Token} {node : Node}
    (h : Consumes ((Rule.operand level).at (depth + Rule.spare level)) ts node rest)
    (hr : Avoids (Continues 0) rest) : Consumes (Parse.operators level (depth + 2)) ts node rest := by
  have last := Consumes.noOperator (depth + Rule.spare level) node
    (hr.mono fun kind (hk : level.has kind = true) => .inr (.inr ⟨level, Nat.zero_le _, hk⟩))
  rw [← List.append_nil ts]
  exact .operators h last

/-- A call or indexing by itself is a phrase of all operators. -/
theorem Consumes.call (depth : Nat) {ts rest : List Token} {node : Node}
    (h : Consumes (suffixed depth) ts node rest) (hs : Begins startsPrimary ts)
    (hr : Avoids (Continues 0) rest) : Consumes (Parse.operators .or (depth + 11)) ts node rest := by
  have unary : Consumes (unary (depth + 1)) ts node rest :=
    .otherwise ((hs.append rest).avoids fun kind => by cases kind <;> decide) h
  have factor := operand .factor (depth + 1) unary hr
  have term := operand .term (depth + 3) factor hr
  have comparison := operand .comparison (depth + 5) term hr
  have equality := operand .equality (depth + 7) comparison hr
  have and := operand .and (depth + 8) equality hr
  exact operand .or (depth + 9) and hr

theorem Expressed.consumes {ts : List Token} {node : Node} (h : Expressed ts node) (depth : Nat)
    (rest : List Token) (hd : 16 * ts.length + 14 ≤ depth) (hr : Finished rest) :
    Consumes (expression depth) ts node rest := by
  obtain ⟨depth, rfl⟩ : ∃ d, depth = d + 1 := ⟨depth - 1, by omega⟩
  exact h.2 depth rest (by omega) hr

theorem itemized_of_expressed {ts : List Token} {nodes : List Node} (h : Listed Expressed ts nodes)
    {depth : Nat} (hd : 16 * ts.length + 14 ≤ depth) {closing : TokenKind}
    (hc : endsExpression closing) : Listed (Itemized (expression depth) closing) ts nodes := by
  have one : ∀ {ts node}, Expressed ts node → 16 * ts.length + 14 ≤ depth →
      Itemized (expression depth) closing ts node := by
    intro ts node he hd
    refine ⟨he.1.mono fun kind hk => ?_, fun rest hr => he.consumes depth rest hd (hr.finished fun kind hk => ?_)⟩
    · have : ∀ kind, startsExpression kind → ¬ endsExpression kind := fun kind => by
        cases kind <;> decide
      simp only [ne_eq, decide_eq_true_eq]
      intro h
      obtain rfl := h
      exact this _ hk hc
    · simp only [Bool.or_eq_true, decide_eq_true_eq] at hk
      rcases hk with rfl | rfl
      · rfl
      · exact hc
  exact h.imp ts.length (fun ts node hle he => one he (by omega)) (Nat.le_refl _)

theorem Consumes.reference {name : Token} {rest : List Token} (hn : name.kind = .identifier)
    (hr : Avoids (Continues 0) rest) (depth : Nat) :
    Consumes (Parse.operators .or (depth + 17)) [name] (.variable name) rest := by
  have primary : Consumes (primary (depth + 5)) [name] (.variable name) rest :=
    .token (by simp [startsPrimary, hn]) (by simp [hn]) (by simp only [hn]; exact .pure _ _)
  have none := Consumes.noSuffix (depth + 4) (.variable name)
    (hr.mono fun kind hk => Continues.mono hk (Nat.zero_le 6))
  exact .call (depth + 6) (primary.map none) ⟨_, _, rfl, by simp [startsPrimary, hn]⟩ hr

theorem Consumes.assignment (depth : Nat) {ts ts' rest : List Token} {equals : Token}
    {target value node : Node} (ht : Consumes (Parse.operators .or depth) ts target (equals :: (ts' ++ rest)))
    (he : equals.kind = .equal) (hv : Consumes (Parse.assignment depth) ts' value rest)
    (ha : assignTo target equals value = Pure.pure node) :
    Consumes (Parse.assignment (depth + 1)) (ts ++ equals :: ts') node rest := by
  refine ht.bind (.token (by simp [he]) (by simp [he]) ?_)
  exact hv.map (by rw [ha]; exact .pure _ _)

theorem Consumes.callSuffix {depth : Nat} {opening closing : Token} {ts rest : List Token}
    {arguments : List Node} (target : Node) (ho : opening.kind = .leftParen)
    (hl : Listed Expressed ts arguments) (hm : arguments.length ≤ maxArguments)
    (hc : closing.kind = .rightParen) (hd : 16 * ts.length + 14 ≤ depth) :
    Consumes (anotherSuffix (expression depth) (expression (depth + 1)) target)
      (opening :: (ts ++ [closing])) (some (.call target closing (.sequence arguments))) rest := by
  refine .token (by simp [ho]) (by simp [ho]) ?_
  have items : Consumes (Parse.items .rightParen (some "Can't have more than 255 arguments.")
      (expression depth)) ts arguments (closing :: rest) :=
    .items ((Advances.expression depth).mono (by omega)) (itemized_of_expressed hl hd rfl)
      ⟨closing, rest, rfl, by simp [hc]⟩ nofun nofun fun _ => hm
  have call : Consumes (callRest (expression depth) target) (ts ++ [closing])
      (.call target closing (.sequence arguments)) rest :=
    items.bind ((Consumes.expect hc nofun _ rest).map (.pure _ _))
  simp only [ho, if_true]
  exact call.map (.pure _ _)

theorem Consumes.indexSuffix {depth : Nat} {opening closing : Token} {ts rest : List Token}
    {index : Node} (target : Node) (ho : opening.kind = .leftBracket) (hi : Expressed ts index)
    (hc : closing.kind = .rightBracket) (hd : 16 * ts.length + 13 ≤ depth) :
    Consumes (anotherSuffix (expression depth) (expression (depth + 1)) target)
      (opening :: (ts ++ [closing])) (some (.indexGet target opening index)) rest := by
  refine .token (by simp [ho]) (by simp [ho]) ?_
  have inner := hi.consumes (depth + 1) (closing :: rest) (by omega)
    (.closed rest (by simp [hc, endsExpression]))
  have element : Consumes (indexRest (expression (depth + 1)) target opening) (ts ++ [closing])
      (.indexGet target opening index) rest := inner.bind (.discard hc nofun (.pure _ _))
  have hne : ¬ opening.kind = .leftParen := by simp [ho]
  simp only [hne, if_false]
  exact element.map (.pure _ _)

theorem complete_primary {token : Token} {ts : List Token} {node : Node}
    (hk : startsPrimary token.kind) (h : ∀ depth rest, 16 * ts.length + 11 ≤ depth → Consumes
      (match token.kind with
        | .false => pure (.literal (.bool false))
        | .true => pure (.literal (.bool true))
        | .nil => pure (.literal .null)
        | .identifier => pure (.variable token)
        | .leftParen => groupingRest (expression (depth + 4))
        | .leftBracket => arrayRest (expression (depth + 4)) token
        | _ => pure (.literal token.literal)) ts node rest) :
    Complete .primary (token :: ts) node := by
  intro depth rest hd
  rw [List.length_cons] at hd
  obtain ⟨depth, rfl⟩ : ∃ d, depth = d + 5 := ⟨depth - 5, by omega⟩
  refine .token hk ?_ (h depth rest (by omega))
  intro he
  simp [startsPrimary, he] at hk

/-- What comes after an operand: operators of its level, or what comes after all of them. -/
theorem avoids_chain {level : Level} {left node : Node} {ts rest : List Token}
    (h : Derives (.chain level left) ts node) (hr : Avoids (Continues (rank level + 1)) rest) :
    Avoids (Continues (rank level + 1)) (ts ++ rest) := by
  cases h with
  | chainEnd => exact hr
  | chainStep hk _ _ => exact .cons (not_continues_of_has ((has_iff _ _).mpr hk))

/-- Every phrase of an expression is read by its rule. -/
theorem derives_complete {symbol : Symbol} {ts : List Token} {node : Node}
    (h : Derives symbol ts node) : Complete symbol ts node := by
  induction h with
  | @assignName name equals ts value hn he hv ih =>
    refine ⟨derives_starts (.assignName hn he hv), fun depth rest hd hr => ?_⟩
    simp only [List.length_cons] at hd
    obtain ⟨depth, rfl⟩ : ∃ d, depth = d + 18 := ⟨depth - 18, by omega⟩
    have hstop : Avoids (Continues 0) (equals :: (ts ++ rest)) :=
      .cons (not_continues_of_ends (.inl he))
    have target := Consumes.reference hn hstop depth
    exact .assignment _ target he (ih.2 _ rest (by omega) hr) rfl
  | @assignElement opening closing equals ts ts' ts'' target index value hcall ho hi hc he hv ihc ihi ihv =>
    refine ⟨derives_starts (.assignElement hcall ho hi hc he hv), fun depth rest hd hr => ?_⟩
    simp only [List.length_append, List.length_cons] at hd
    obtain ⟨depth, rfl⟩ : ∃ d, depth = d + 14 := ⟨depth - 14, by omega⟩
    have hstop : Avoids (Continues 0) (equals :: (ts'' ++ rest)) :=
      .cons (not_continues_of_ends (.inl he))
    -- the target is read as an element before the equals sign shows that it is assigned to
    have last := Consumes.noSuffix depth (.indexGet target opening index)
      (hstop.mono fun kind hk => Continues.mono hk (Nat.zero_le 6))
    have suffix : Consumes (suffixLoop depth target) (opening :: (ts' ++ [closing]) ++ [])
        (.indexGet target opening index) (equals :: (ts'' ++ rest)) :=
      .loopRound (.suffixLoop depth) (.indexSuffix target ho ihi hc (by omega)) last
    have element := ihc depth _ _ _ (by omega) suffix
    have target := Consumes.call _ element ((derives_starts hcall).append _) hstop
    simpa using Consumes.assignment (depth + 13) target he (ihv.2 _ rest (by omega) hr) rfl
  | value hd ih =>
    refine ⟨derives_starts hd, fun depth rest hdepth hr => ?_⟩
    obtain ⟨depth, rfl⟩ : ∃ d, depth = d + 1 := ⟨depth - 1, by omega⟩
    have inner := ih depth rest (by simp only [operandSteps, Rule.spare]; omega)
      (hr.mono fun _ => .inr)
    refine inner.map (.otherwise ?_ (.pure _ _))
    exact hr.mono fun kind hk => .inl (by simpa using hk)
  | @operators level ts ts' left node _ hchain ih ih' =>
    intro depth rest hd hr
    have hspare : Rule.spare level < operandSteps level := by cases level <;> decide
    rw [List.length_append] at hd
    obtain ⟨depth, rfl⟩ : ∃ d, depth = d + 2 := ⟨depth - 2, by omega⟩
    have stop := hr.mono fun kind (hk : level.has kind = true) => .inr (.inr ⟨level, Nat.le_refl _, hk⟩)
    have hr' := hr.mono fun _ hk => Continues.mono hk (Nat.le_succ _)
    have loop := ih' (depth + Rule.spare level) [] node rest (by omega) hr' (.noOperator _ node stop)
    rw [List.append_nil] at loop
    exact .operators (complete_operand ih (by omega) (avoids_chain hchain hr')) loop
  | chainEnd => exact fun _ _ _ _ _ _ h => h
  | @chainStep level operator ts ts' left right node hk _ hchain ih ih' =>
    intro depth ts'' last rest hd hr hl
    rw [← has_iff] at hk
    rw [← node_eq] at ih'
    simp only [List.length_cons, List.length_append] at hd
    have loop := ih' depth ts'' last rest (by omega) hr hl
    have first : Consumes (anotherOperator level ((Rule.operand level).at depth) left) (operator :: ts)
        (some (level.node left operator right)) (ts' ++ ts'' ++ rest) := by
      refine .token hk ?_ (Consumes.map (complete_operand ih (by omega) ?_) (.pure _ _))
      · intro he
        cases level <;> simp [Level.has, he] at hk
      · rw [List.append_assoc]
        exact avoids_chain hchain hr
    simpa [operatorLoop] using Consumes.loopRound (.operatorLoop level depth) first loop
  | @sign operator ts right ho _ ih =>
    intro depth rest hd hr
    rw [List.length_cons] at hd
    obtain ⟨depth, rfl⟩ : ∃ d, depth = d + 1 := ⟨depth - 1, by omega⟩
    refine .token (by simpa using ho) ?_ ((ih depth rest (by omega) hr).map (.pure _ _))
    rcases ho with ho | ho <;> simp [ho]
  | @unsigned ts node hcall ih =>
    intro depth rest hd hr
    have hstart : Begins startsPrimary ts := derives_starts hcall
    have hlen : 0 < ts.length := by
      obtain ⟨_, _, rfl, -⟩ := hstart
      exact Nat.zero_lt_succ _
    obtain ⟨depth, rfl⟩ : ∃ d, depth = d + 3 := ⟨depth - 3, by omega⟩
    have call := ih depth [] node rest (by omega) (.noSuffix depth node hr)
    rw [List.append_nil] at call
    exact .otherwise ((hstart.append rest).avoids fun kind => by cases kind <;> decide) call
  | @call ts ts' target node _ _ ih ih' =>
    intro depth ts'' last rest hd hl
    rw [List.length_append] at hd
    have loop := ih' depth ts'' last rest (by omega) hl
    rw [List.append_assoc]
    exact (ih (depth + 1) _ (by omega)).bind loop
  | suffixesEnd => exact fun _ _ _ _ _ h => h
  | @suffixCall opening closing ts ts' arguments target node ho _ hm hc _ ih ih' =>
    intro depth ts'' last rest hd hl
    obtain ⟨nodes, he, hlist⟩ := ih
    cases he
    simp only [List.length_cons, List.length_append] at hd
    have loop := ih' depth ts'' last rest (by omega) hl
    simpa [suffixLoop] using Consumes.loopRound (.suffixLoop depth)
      (.callSuffix target ho hlist hm hc (by omega)) loop
  | @suffixIndex opening closing ts ts' index target node ho _ hc _ ih ih' =>
    intro depth ts'' last rest hd hl
    simp only [List.length_cons, List.length_append] at hd
    have loop := ih' depth ts'' last rest (by omega) hl
    simpa [suffixLoop] using Consumes.loopRound (.suffixLoop depth)
      (.indexSuffix target ho ih hc (by omega)) loop
  | falsehood hk | truth hk | nothing hk | reference hk =>
    exact complete_primary (by simp [startsPrimary, hk]) fun _ rest _ => by
      simp only [hk]; exact .pure _ rest
  | constant hk =>
    rcases hk with hk | hk
    all_goals
      exact complete_primary (by simp [startsPrimary, hk]) fun _ rest _ => by
        simp only [hk]; exact .pure _ rest
  | @grouping opening closing ts node ho _ hc ih =>
    refine complete_primary (by simp [startsPrimary, ho]) fun depth rest hd => ?_
    rw [List.length_append, List.length_singleton] at hd
    have inner := ih.consumes (depth + 4) (closing :: rest) (by omega)
      (.closed rest (by simp [hc, endsExpression]))
    simp only [ho]
    exact inner.bind (.discard hc (by decide) (.pure _ _))
  | @array opening closing ts elements ho _ hc ih =>
    obtain ⟨nodes, rfl, hlist⟩ := ih
    refine complete_primary (by simp [startsPrimary, ho]) fun depth rest hd => ?_
    rw [List.length_append, List.length_singleton] at hd
    have items : Consumes (Parse.items .rightBracket none (expression (depth + 4))) ts nodes
        (closing :: rest) :=
      .items ((Advances.expression _).mono (by omega)) (itemized_of_expressed hlist (by omega) rfl)
        ⟨closing, rest, rfl, by simp [hc]⟩ (by decide) (by decide) (by simp)
    simp only [ho]
    exact items.bind (.discard hc (by decide) (.pure _ _))
  | item _ ih => exact ⟨_, rfl, .one ih⟩
  | moreItems _ hk _ ih ih' =>
    obtain ⟨nodes, he, hs⟩ := ih'
    cases he
    exact ⟨_, rfl, .more ih hk hs⟩
  | noItems => exact ⟨[], rfl, .none⟩
  | someItems _ ih =>
    obtain ⟨nodes, he, hs⟩ := ih
    exact ⟨nodes, he, .some hs⟩

/-! ## Statements -/

/-- An expression before a token that ends it. -/
theorem Consumes.expression {ts rest : List Token} {node : Node} {closing : Token} {depth : Nat}
    (h : Derives .expression ts node) (hd : 16 * ts.length + 14 ≤ depth)
    (hc : endsExpression closing.kind) :
    Consumes (expression depth) ts node (closing :: rest) :=
  Expressed.consumes (derives_complete h) depth _ hd (.closed rest hc)

/-- The kinds of token that can begin a statement. -/
def startsStatement (kind : TokenKind) : Bool := startsExpression kind || leadsStatement kind

/-- The kinds of token that can begin a declaration. -/
def startsDeclaration (kind : TokenKind) : Bool :=
  startsStatement kind || kind = .fun || kind = .var

/-- How a phrase of a program begins. A program may be empty. -/
def FormStarts : Form → List Token → Prop
  | .declaration, ts => Begins startsDeclaration ts
  | .statement _, ts => Begins startsStatement ts
  | .declarations, _ => True

theorem simple_starts {ts : List Token} {node : Node} (h : Simple ts node) :
    Begins startsExpression ts := by
  cases h with
  | mk hd _ => exact Begins.append (derives_starts hd) _

theorem builds_starts {nearest : Prop} {form : Form} {ts : List Token} {node : Node}
    (h : Builds nearest form ts node) : FormStarts form ts := by
  have one : ∀ {token : Token} {ts : List Token}, leadsStatement token.kind →
      Begins startsStatement (token :: ts) := fun hk => ⟨_, _, rfl, by simp [startsStatement, hk]⟩
  induction h with
  | function hk => exact ⟨_, _, rfl, by simp [startsDeclaration, hk]⟩
  | declared hk => exact ⟨_, _, rfl, by simp [startsDeclaration, hk]⟩
  | statement _ ih => exact Begins.mono ih fun kind hk => by simp [startsDeclaration, hk]
  | forLoop hk => exact one (by simp [leadsStatement, hk])
  | ifThen hk => exact one (by simp [leadsStatement, hk])
  | ifElse hk => exact one (by simp [leadsStatement, hk])
  | print hk => exact one (by simp [leadsStatement, hk])
  | giveBack hk => exact one (by simp [leadsStatement, hk])
  | whileLoop hk => exact one (by simp [leadsStatement, hk])
  | block hk => exact one (by simp [leadsStatement, hk])
  | simple h => exact (simple_starts h).mono fun kind hk => by simp [startsStatement, hk]
  | none => trivial
  | more => trivial

theorem Consumes.expressionStatement {ts rest : List Token} {node : Node} {depth : Nat}
    (h : Simple ts node) (hd : 16 * ts.length ≤ depth + 2) :
    Consumes (expressionStatement (Parse.expression depth)) ts node rest := by
  cases h with
  | @mk semicolon ts node he hs =>
    rw [List.length_append, List.length_singleton] at hd
    exact (expression he (by omega) (by simp [endsExpression, hs])).bind
      (.discard hs nofun (.pure _ _))

theorem Consumes.varDeclaration {ts rest : List Token} {node : Node} {depth : Nat}
    (h : Variable ts node) (hd : 16 * ts.length ≤ depth + 2) :
    Consumes (varDeclaration (Parse.expression depth)) ts node rest := by
  cases h with
  | @bare name semicolon hn hs =>
    have none : Consumes (optional .equal (Parse.expression depth)) [] .absent (semicolon :: rest) :=
      .otherwise (.cons (by simp [hs])) (.pure _ _)
    exact head (.expect hn nofun _ _) (look none (.discard hs nofun (.pure _ _)))
  | @initialized name equals semicolon ts value hn he hv hs =>
    simp only [List.length_cons, List.length_append, List.length_nil] at hd
    have some : Consumes (optional .equal (Parse.expression depth)) (equals :: ts) value
        (semicolon :: rest) :=
      .token (by simp [he]) (by simp [he]) (expression hv (by omega) (by simp [endsExpression, hs]))
    refine head (.expect hn nofun _ _) ?_
    rw [← List.cons_append]
    exact some.bind (.discard hs nofun (.pure _ _))

theorem Consumes.clause {ts rest : List Token} {node? : Option Node} {closing : Token}
    {kind : TokenKind} {depth : Nat} (h : Clause ts node?) (hd : 16 * ts.length + 14 ≤ depth)
    (hc : closing.kind = kind) (he : endsExpression kind) :
    Consumes (clause kind (Parse.expression depth)) ts node? (closing :: rest) := by
  subst hc
  cases h with
  | none =>
    refine look (.check ⟨closing, rest, rfl, by simp⟩ ?_) (.pure _ _)
    intro hk
    simp [endsExpression, hk] at he
  | some h =>
    have hstart : Begins startsExpression ts := derives_starts h
    refine look (.checkNot ((hstart.append _).avoids fun kind hk hkind => ?_))
      ((expression h hd he).map (.pure _ _))
    have : ∀ kind, startsExpression kind → ¬ endsExpression kind := fun kind => by
      cases kind <;> decide
    exact this _ hk (hkind ▸ he)

theorem Consumes.initializerClause {ts rest : List Token} {node? : Option Node} {depth : Nat}
    (h : Initializer ts node?) (hd : 16 * ts.length ≤ depth + 2) :
    Consumes (initializerClause (Parse.expression depth)) ts node? rest := by
  cases h with
  | none hs =>
    refine .token (by simp [hs]) (by simp [hs]) ?_
    simp only [hs, if_true]
    exact .pure _ _
  | @declared keyword ts node hk hv =>
    rw [List.length_cons] at hd
    refine .token (by simp [hk]) (by simp [hk]) ?_
    have hne : ¬ keyword.kind = .semicolon := by simp [hk]
    simp only [hne, if_false]
    exact (varDeclaration hv (by omega)).map (.pure _ _)
  | simple hs =>
    refine .otherwise (((simple_starts hs).append rest).avoids fun kind => by cases kind <;> decide) ?_
    exact (expressionStatement hs hd).map (.pure _ _)

/-- What stands in parentheses, and what follows. -/
theorem Consumes.inParens {inner : Parse α} {f : α → Parse β} {opening closing : Token}
    {ts ts' rest : List Token} {a : α} {b : β} {before after : String}
    (ho : opening.kind = .leftParen) (hi : Consumes inner ts a (closing :: (ts' ++ rest)))
    (hc : closing.kind = .rightParen) (hf : Consumes (f a) ts' b rest) :
    Consumes (Functor.discard (Parse.expect .leftParen before) >>= fun _ => inner >>= fun a =>
      Functor.discard (Parse.expect .rightParen after) >>= fun _ => f a)
      (opening :: (ts ++ closing :: ts')) b rest :=
  .discard ho nofun (hi.bind (.discard hc nofun hf))

/-- The loop over declarations. -/
def declarationLoop (ended : Parse Bool) (depth : Nat) (done : List Node) : Parse (List Node) :=
  repeatWhile (anotherDeclaration ended (declaration depth)) done

/-- A sign that ends declarations, and where it is not seen. -/
structure Ends (ended : Parse Bool) : Prop where
  proceeds : ∀ depth, Proceeds (anotherDeclaration ended (declaration depth))
  goesOn : ∀ rest, Begins startsDeclaration rest → Consumes ended [] false rest

theorem Ends.atEnd : Ends atEnd := by
  refine ⟨fun depth => .inProgram (.declaration depth), ?_⟩
  intro _ h finish reported _
  obtain ⟨token, rest, rfl, hk⟩ := h
  have he : token.kind ≠ .eof := by
    intro he
    simp [he, startsDeclaration, startsStatement, startsExpression, startsPrimary, leadsStatement] at hk
  simp [Parse.atEnd, Cursor.atEnd, Cursor.peek, he]

theorem Ends.blockEnds : Ends blockEnds := by
  refine ⟨fun depth => .inBlock (.declaration depth), ?_⟩
  intro _ h
  obtain ⟨token, rest, rfl, hk⟩ := h
  have he : ∀ kind, startsDeclaration kind → ¬ kind = .rightBrace := fun kind => by
    cases kind <;> decide
  refine Consumes.look (.checkNot (.cons (he _ hk))) ?_
  exact Consumes.look (Ends.atEnd.goesOn _ ⟨token, rest, rfl, hk⟩) (.pure _ _)

section

variable {ended : Parse Bool} {depth : Nat} {c c' : Cursor}

theorem declarationLoop_end (h : Ends ended) (hc : c.finish.kind = .eof) (hend : ended c = .ok true c)
    (done : List Node) : declarationLoop ended depth done c = .ok done c := by
  have last : anotherDeclaration ended (declaration depth) done c = .ok none c := bind_eq_of_ok hend
  unfold declarationLoop
  rw [repeatWhile_eq (h.proceeds depth) done hc, bind_eq_of_ok last]
  rfl

theorem declarationLoop_next (h : Ends ended) (hc : c.finish.kind = .eof) (hgo : ended c = .ok false c)
    {node? : Option Node} (hd : declaration depth c = .ok node? c') (done : List Node) :
    declarationLoop ended depth done c = declarationLoop ended depth (node?.toList ++ done) c' := by
  have round : anotherDeclaration ended (declaration depth) done c =
      .ok (some (node?.toList ++ done)) c' := by
    unfold anotherDeclaration
    rw [bind_eq_of_ok hgo]
    exact bind_eq_of_ok hd
  unfold declarationLoop
  rw [repeatWhile_eq (h.proceeds depth) done hc, bind_eq_of_ok round]

end

/-- The rules read a phrase of a program. An open statement must not come before an `else`. -/
def FormComplete : Form → List Token → Node → Prop
  | .declaration, ts, node => ∀ depth rest, 16 * ts.length + 21 ≤ depth → Avoids (· = .else) rest →
      Consumes (declaration depth) ts (some node) rest
  | .statement isOpen, ts, node => ∀ depth rest, 16 * ts.length + 20 ≤ depth →
      (isOpen = true → Avoids (· = .else) rest) → Consumes (statement depth) ts node rest
  | .declarations, ts, tree => ∃ nodes, tree = .sequence nodes ∧ ∀ ended depth done ts' last rest,
      Ends ended → 16 * ts.length + 21 ≤ depth → Avoids (· = .else) (ts' ++ rest) →
      Consumes (declarationLoop ended depth (nodes.reverse ++ done)) ts' last rest →
      Consumes (declarationLoop ended depth done) (ts ++ ts') last rest

theorem Consumes.recovering {p : Parse Node} {ts rest : List Token} {node : Node}
    (h : Consumes p ts node rest) : Consumes (recovering p) ts (some node) rest := by
  intro finish reported hf
  unfold Parse.recovering
  rw [h finish reported hf]

/-- The statements of a block, up to its brace. -/
theorem Consumes.blockRest {ts rest : List Token} {body : Node} {closing : Token} {depth : Nat}
    (h : FormComplete .declarations ts body) (hc : closing.kind = .rightBrace)
    (hd : 16 * ts.length + 21 ≤ depth) :
    Consumes (blockRest (declaration depth)) (ts ++ [closing]) body rest := by
  obtain ⟨nodes, rfl, hloop⟩ := h
  have ended : Consumes Parse.blockEnds [] true (closing :: rest) :=
    look (.check ⟨closing, rest, rfl, by simp [hc]⟩ nofun) fun _ _ _ => rfl
  have last : Consumes (declarationLoop Parse.blockEnds depth (nodes.reverse ++ [])) []
      (nodes.reverse ++ []) (closing :: rest) :=
    .loopEnd (Ends.blockEnds.proceeds depth) (look ended (.pure none _))
  have loop := hloop Parse.blockEnds depth [] [] _ (closing :: rest) .blockEnds hd
    (.cons (by simp [hc])) last
  rw [List.append_nil] at loop
  have hrev : nodes = (nodes.reverse ++ []).reverse := by simp
  rw [hrev]
  exact bind loop (.discard hc nofun (.pure _ _))

theorem itemized_of_names {ts params : List Token} (h : Listed IsName ts params) (message : String) :
    Listed (Itemized (expect .identifier message) .rightParen) ts params := by
  refine h.imp ts.length ?_ (Nat.le_refl _)
  intro _ name _ h
  obtain ⟨rfl, hk⟩ := h
  exact ⟨⟨name, [], rfl, by simp [hk]⟩, fun rest _ => .expect hk nofun _ rest⟩

theorem Consumes.functionRest {name opening closing brace ending : Token}
    {ts ts' params rest : List Token} {body : Node} {depth : Nat} (hn : name.kind = .identifier)
    (ho : opening.kind = .leftParen) (hp : Listed IsName ts params)
    (hm : params.length ≤ maxArguments) (hc : closing.kind = .rightParen)
    (hb : brace.kind = .leftBrace) (hbody : FormComplete .declarations ts' body)
    (he : ending.kind = .rightBrace) (hd : 16 * ts'.length + 21 ≤ depth) :
    Consumes (functionRest (declaration depth))
      (name :: opening :: (ts ++ closing :: brace :: (ts' ++ [ending]))) (.function name params body)
      rest := by
  have names : Consumes (Parse.items .rightParen (some "Can't have more than 255 parameters.")
      (Parse.expect .identifier "Expect parameter name.")) ts params
      (closing :: (brace :: (ts' ++ [ending]) ++ rest)) :=
    .items ((Advances.expect _ _).mono (Nat.zero_le 1)) (itemized_of_names hp _)
      ⟨closing, _, rfl, by simp [hc]⟩ nofun nofun fun _ => hm
  have block : Consumes (Parse.blockRest (declaration depth)) (ts' ++ [ending]) body rest :=
    .blockRest hbody he hd
  exact head (.expect hn nofun _ _) (.inParens ho names hc (.discard hb nofun (block.map (.pure _ _))))

/-- What comes after a declaration: another one, or what comes after all of them. -/
theorem avoids_declarations {nearest : Prop} {ts rest : List Token} {body : Node}
    (h : Builds nearest .declarations ts body) (hr : Avoids (· = .else) rest) :
    Avoids (· = .else) (ts ++ rest) := by
  cases h with
  | none => exact hr
  | more hb _ =>
    have hstart := builds_starts hb
    rw [List.append_assoc]
    exact (Begins.append hstart _).avoids fun kind => by cases kind <;> decide

/-- Every phrase of a program is read by its rule. -/
theorem builds_complete {form : Form} {ts : List Token} {node : Node}
    (h : Builds True form ts node) : FormComplete form ts node := by
  induction h with
  | @function keyword name opening closing brace ending ts ts' params body hk hn ho hp hm hc hb _ he ih =>
    intro depth rest hd hr
    simp only [List.length_cons, List.length_append, List.length_nil] at hd
    obtain ⟨depth, rfl⟩ : ∃ d, depth = d + 7 := ⟨depth - 7, by omega⟩
    refine Consumes.recovering (.token (by simp [hk]) (by simp [hk]) ?_)
    simp only [hk, if_true]
    exact .functionRest hn ho hp hm hc hb ih he (by omega)
  | @declared keyword ts node hk hv =>
    intro depth rest hd hr
    rw [List.length_cons] at hd
    obtain ⟨depth, rfl⟩ : ∃ d, depth = d + 7 := ⟨depth - 7, by omega⟩
    refine Consumes.recovering (.token (by simp [hk]) (by simp [hk]) ?_)
    have hne : ¬ keyword.kind = .fun := by simp [hk]
    simp only [hne, if_false]
    exact .varDeclaration hv (by omega)
  | @statement isOpen ts node hs ih =>
    intro depth rest hd hr
    obtain ⟨depth, rfl⟩ : ∃ d, depth = d + 7 := ⟨depth - 7, by omega⟩
    have hstart : Begins startsStatement ts := builds_starts hs
    refine Consumes.recovering (.otherwise ?_ (ih (depth + 6) rest (by omega) fun _ => hr))
    exact (hstart.append rest).avoids fun kind => by cases kind <;> decide
  | @forLoop keyword opening semicolon closing ts₁ ts₂ ts₃ ts₄ initializer condition increment body
      isOpen hk ho h₁ h₂ hs h₃ hc _ ih =>
    intro depth rest hd hr
    simp only [List.length_cons, List.length_append] at hd
    obtain ⟨depth, rfl⟩ : ∃ d, depth = d + 3 := ⟨depth - 3, by omega⟩
    refine .token (by simp [leadsStatement, hk]) (by simp [hk]) ?_
    simp only [hk]
    rw [← forLoop_eq]
    have body := ih (depth + 1) rest (by omega) hr
    refine .discard ho nofun (.bind (.initializerClause h₁ ?_) (.bind (.clause h₂ ?_ hs rfl)
      (.discard hs nofun (.bind (.clause h₃ ?_ hc rfl) (.discard hc nofun (body.map (.pure _ _))))))) <;>
      omega
  | @ifThen keyword opening closing ts ts' condition thenBranch isOpen hk ho hcond hc _ ih =>
    intro depth rest hd hr
    simp only [List.length_cons, List.length_append] at hd
    obtain ⟨depth, rfl⟩ : ∃ d, depth = d + 3 := ⟨depth - 3, by omega⟩
    refine .token (by simp [leadsStatement, hk]) (by simp [hk]) ?_
    simp only [hk]
    have absent : Consumes (optional .else (statement (depth + 1))) [] .absent rest :=
      .otherwise ((hr rfl).mono fun kind hkind => by simpa using hkind) (.pure _ _)
    refine .inParens ho (.expression hcond (by omega) (by simp [endsExpression, hc])) hc ?_
    exact (ih (depth + 1) rest (by omega) fun _ => hr rfl).map (.look absent (.pure _ _))
  | @ifElse keyword opening closing word ts ts' ts'' condition thenBranch elseBranch isOpen isOpen' hk
      ho hcond hc _ hopen hw _ ih ih' =>
    intro depth rest hd hr
    simp only [List.length_cons, List.length_append] at hd
    obtain ⟨depth, rfl⟩ : ∃ d, depth = d + 3 := ⟨depth - 3, by omega⟩
    refine .token (by simp [leadsStatement, hk]) (by simp [hk]) ?_
    simp only [hk]
    have thenBranch := ih (depth + 1) (word :: (ts'' ++ rest)) (by omega) (by simp [hopen trivial])
    have elseBranch : Consumes (optional .else (statement (depth + 1))) (word :: ts'') elseBranch rest :=
      .token (by simp [hw]) (by simp [hw]) (ih' (depth + 1) rest (by omega) hr)
    refine .inParens ho (.expression hcond (by omega) (by simp [endsExpression, hc])) hc ?_
    exact thenBranch.bind (elseBranch.map (.pure _ _))
  | @print keyword semicolon ts value hk hv hs =>
    intro depth rest hd hr
    simp only [List.length_cons, List.length_append, List.length_nil] at hd
    obtain ⟨depth, rfl⟩ : ∃ d, depth = d + 3 := ⟨depth - 3, by omega⟩
    refine .token (by simp [leadsStatement, hk]) (by simp [hk]) ?_
    simp only [hk]
    exact (Consumes.expression hv (by omega) (by simp [endsExpression, hs])).bind
      (.discard hs nofun (.pure _ _))
  | @giveBack keyword semicolon ts value hk hv hs =>
    intro depth rest hd hr
    simp only [List.length_cons, List.length_append, List.length_nil] at hd
    obtain ⟨depth, rfl⟩ : ∃ d, depth = d + 3 := ⟨depth - 3, by omega⟩
    refine .token (by simp [leadsStatement, hk]) (by simp [hk]) ?_
    simp only [hk]
    exact (Consumes.clause hv (by omega) hs rfl).bind (.discard hs nofun (.pure _ _))
  | @whileLoop keyword opening closing ts ts' condition body isOpen hk ho hcond hc _ ih =>
    intro depth rest hd hr
    simp only [List.length_cons, List.length_append] at hd
    obtain ⟨depth, rfl⟩ : ∃ d, depth = d + 3 := ⟨depth - 3, by omega⟩
    refine .token (by simp [leadsStatement, hk]) (by simp [hk]) ?_
    simp only [hk]
    refine .inParens ho (.expression hcond (by omega) (by simp [endsExpression, hc])) hc ?_
    exact (ih (depth + 1) rest (by omega) hr).map (.pure _ _)
  | @block opening closing ts body ho _ hc ih =>
    intro depth rest hd hr
    simp only [List.length_cons, List.length_append, List.length_nil] at hd
    obtain ⟨depth, rfl⟩ : ∃ d, depth = d + 3 := ⟨depth - 3, by omega⟩
    refine .token (by simp [leadsStatement, ho]) (by simp [ho]) ?_
    simp only [ho]
    exact (Consumes.blockRest ih hc (by omega)).map (.pure _ _)
  | @simple ts node hs =>
    intro depth rest hd hr
    obtain ⟨depth, rfl⟩ : ∃ d, depth = d + 3 := ⟨depth - 3, by omega⟩
    refine .otherwise (((simple_starts hs).append rest).avoids fun kind => by cases kind <;> decide) ?_
    exact .expressionStatement hs (by omega)
  | none => exact ⟨[], rfl, fun _ _ _ _ _ _ _ _ _ h => h⟩
  | @more ts ts' node nodes hb hbs ih ih' =>
    obtain ⟨nodes', he, hloop⟩ := ih'
    cases he
    refine ⟨node :: nodes, rfl, fun ended depth done ts'' last rest hends hd hr hl => ?_⟩
    rw [List.length_append] at hd
    have hstart : Begins startsDeclaration ts := builds_starts hb
    have loop := hloop ended depth (node :: done) ts'' last rest hends (by omega) hr (by simpa using hl)
    have one := ih depth (ts' ++ ts'' ++ rest) (by omega) (by
      rw [List.append_assoc]
      exact avoids_declarations hbs hr)
    have round : Consumes (anotherDeclaration ended (declaration depth) done) ts
        (some (node :: done)) (ts' ++ ts'' ++ rest) :=
      .look (hends.goesOn _ (hstart.append _)) (one.map (.pure _ _))
    simpa [declarationLoop] using Consumes.loopRound (hends.proceeds depth) round loop

/-! ## Programs -/

/-- A loop over the declarations of a program ends with them. -/
theorem Consumes.loopDone (depth : Nat) (done : List Node) :
    Consumes (declarationLoop Parse.atEnd depth done) [] done [] := by
  have ended : Consumes Parse.atEnd [] true [] := by
    intro finish reported hf
    simp [Parse.atEnd, Cursor.atEnd, Cursor.peek, hf]
  exact .loopEnd (Ends.atEnd.proceeds depth) (.look ended (.pure none _))

/-- A program of the grammar parses to its trees, given sixteen open steps for every token. -/
theorem program_complete {depth : Nat} {tokens : List Token} {trees : List Node} {finish : Token}
    (h : Program True tokens trees) (hf : finish.kind = .eof) (hd : 16 * tokens.length + 21 ≤ depth) :
    program depth ⟨tokens, finish, []⟩ = .ok trees ⟨[], finish, []⟩ := by
  obtain ⟨nodes, he, hloop⟩ := builds_complete h
  cases he
  have loop := hloop Parse.atEnd depth [] [] _ [] .atEnd hd .nil (.loopDone depth _)
  have whole : Consumes (program depth) (tokens ++ []) (trees.reverse ++ []).reverse [] :=
    loop.map (.pure _ _)
  simpa only [List.append_nil, List.reverse_reverse] using whole finish [] hf

end GameScript.Parse
