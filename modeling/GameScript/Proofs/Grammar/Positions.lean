import GameScript.Proofs.Grammar.Recovery
import Mathlib.Data.List.ReduceOption

/-! # Positions of the parser among the tokens

A cursor stands at a position: a number of tokens has been read, and the end of the program is the
last position there is. Reading and skipping are told here by positions alone, with lookups that give
nothing before the first token and after the last one. The parser agrees with that at every position
that it can come to, so it never looks outside. Every attempt at a declaration is made before the end
and comes to a later position, so that no loop needs a bound on its rounds. -/

namespace GameScript.Parse

/-! ## Reading and skipping by positions -/

section

variable (all : List Token)

/-- The token before a position. Before the first one there is none. -/
def previous? : Nat → Option Token
  | 0 => none
  | current + 1 => all[current]?

/-- Moves on by a token, but not past the end. Gives the token before the new position, too. -/
def advance? (current : Nat) : Option (Token × Nat) := do
  let token ← all[current]?
  let next := if token.kind = .eof then current else current + 1
  return (← previous? all next, next)

/-- Reads the token at a position if its kind is wanted. -/
def accept? (wanted : TokenKind → Bool) (current : Nat) : Option (Option Token × Nat) := do
  let token ← all[current]?
  if token.kind ≠ .eof && wanted token.kind then
    let (read, next) ← advance? all current
    return (some read, next)
  else return (none, current)

/-- The first boundary between statements from a position on. -/
def resume? (current : Nat) : Option Nat :=
  match h : all[current]? with
  | none => none
  | some token =>
    if token.kind = .eof then some current
    else do
      let previous ← previous? all current
      if previous.kind = .semicolon || token.kind.startsStatement then return current
      else resume? (current + 1)
termination_by all.length - current
decreasing_by
  have := (List.getElem?_eq_some_iff.1 h).1
  omega

theorem resume?_eq {current : Nat} {token : Token} (h : all[current]? = some token) :
    resume? all current =
      if token.kind = .eof then some current
      else previous? all current >>= fun previous =>
        if previous.kind = .semicolon || token.kind.startsStatement then some current
        else resume? all (current + 1) := by
  rw [resume?]
  split
  · simp_all
  · next other hother =>
    obtain rfl : token = other := by simpa [h] using hother
    rfl

/-- Skips a token and all up to the next boundary between statements. -/
def synchronize? (current : Nat) : Option Nat := do
  let (_, next) ← advance? all current
  resume? all next

end

/-- A cursor after the first `current` tokens of a program. -/
structure StandsAt (tokens : List Token) (finish : Token) (current : Nat) (c : Cursor) : Prop where
  bound : current ≤ tokens.length
  rest : c.rest = tokens.drop current
  finish : c.finish = finish

section

variable {tokens : List Token} {finish : Token} {current : Nat} {c c' : Cursor}

theorem StandsAt.start (tokens : List Token) (finish : Token) (reported : List Diagnostic) :
    StandsAt tokens finish 0 ⟨tokens, finish, reported⟩ := ⟨Nat.zero_le _, rfl, rfl⟩

theorem StandsAt.length (h : StandsAt tokens finish current c) :
    c.rest.length = tokens.length - current := by
  rw [h.rest, List.length_drop]

/-- Where a rule may come to is a position, too, and none before. -/
theorem StandsAt.leads (h : StandsAt tokens finish current c) (hl : c.Leads c') :
    ∃ next, current ≤ next ∧ StandsAt tokens finish next c' := by
  obtain ⟨read, hread⟩ := hl.rest
  refine ⟨current + read.length, Nat.le_add_right .., ?_, ?_, hl.finish.trans h.finish⟩
  · have hlength := congrArg List.length hread
    have hbound := h.bound
    rw [List.length_append, h.length] at hlength
    omega
  · rw [← List.drop_drop, ← h.rest, ← hread, List.drop_left]

theorem StandsAt.lt_iff (h : StandsAt tokens finish current c) :
    current < tokens.length ↔ c.rest ≠ [] := by
  rw [← List.length_pos_iff, h.length]
  omega

/-- A cursor with fewer tokens left stands at a later position. -/
theorem StandsAt.lt {next : Nat} (h : StandsAt tokens finish current c)
    (h' : StandsAt tokens finish next c') (hlt : c'.rest.length < c.rest.length) : current < next := by
  rw [h.length, h'.length] at hlt
  omega

/-- The next token is the one at the position. -/
theorem StandsAt.peek (h : StandsAt tokens finish current c) :
    (tokens ++ [finish])[current]? = some c.peek := by
  have hbound := h.bound
  rw [Cursor.peek, h.rest, h.finish, List.head?_drop]
  rcases Nat.lt_or_eq_of_le hbound with hlt | rfl
  · rw [List.getElem?_append_left hlt, List.getElem?_eq_getElem hlt]
    rfl
  · simp

theorem StandsAt.previous? (h : StandsAt tokens finish current c) {token : Token} {ts : List Token}
    (hr : c.rest = token :: ts) : Parse.previous? (tokens ++ [finish]) (current + 1) = some token := by
  have hpeek := h.peek
  rwa [Cursor.peek, hr] at hpeek

theorem StandsAt.tail (h : StandsAt tokens finish current c) {token : Token} {ts : List Token}
    (hr : c.rest = token :: ts) (reported : List Diagnostic) :
    StandsAt tokens finish (current + 1) ⟨ts, c.finish, reported⟩ := by
  refine ⟨h.lt_iff.2 (by rw [hr]; nofun), ?_, h.finish⟩
  rw [← List.drop_drop, ← h.rest, hr]
  rfl

variable (ht : ∀ token ∈ tokens, token.kind ≠ .eof) (hf : finish.kind = .eof)

include ht in
theorem StandsAt.kind_ne (h : StandsAt tokens finish current c) {token : Token} {ts : List Token}
    (hr : c.rest = token :: ts) : token.kind ≠ .eof :=
  ht token (List.mem_of_mem_drop (h.rest ▸ hr ▸ List.mem_cons_self))

include ht in
/-- Before the end, moving on is defined and comes to the position after the token. -/
theorem StandsAt.advance? (h : StandsAt tokens finish current c) {token : Token} {ts : List Token}
    (hr : c.rest = token :: ts) :
    Parse.advance? (tokens ++ [finish]) current = some (token, current + 1) := by
  have hpeek : c.peek = token := by rw [Cursor.peek, hr]; rfl
  rw [Parse.advance?, h.peek, hpeek]
  simp [h.kind_ne ht hr, h.previous? hr]

include ht hf in
/-- Reading a token by positions does what the parser does. -/
theorem StandsAt.accept? (h : StandsAt tokens finish current c) (wanted : TokenKind → Bool) :
    ∃ token? next c', accept wanted c = .ok token? c' ∧
      Parse.accept? (tokens ++ [finish]) wanted current = some (token?, next) ∧
      StandsAt tokens finish next c' := by
  unfold Parse.accept? Parse.accept
  rw [h.peek]
  cases hr : c.rest with
  | nil =>
    have hpeek : c.peek = finish := by rw [Cursor.peek, hr, h.finish]; rfl
    exact ⟨none, current, c, rfl, by simp [hpeek, hf], h⟩
  | cons token ts =>
    have hpeek : c.peek = token := by rw [Cursor.peek, hr]; rfl
    simp only [hpeek, Option.bind_eq_bind, Option.bind_some, h.advance? ht hr]
    split
    · refine ⟨some token, current + 1, c.advance, rfl, rfl, ?_⟩
      simpa [Cursor.advance, hr] using h.tail hr c.reported
    · exact ⟨none, current, c, rfl, rfl, h⟩

include ht hf in
/-- Skipping by positions does what the parser does, once there is a token before the position. -/
theorem StandsAt.resume? (h : StandsAt tokens finish current c) {previous : Token}
    (hp : Parse.previous? (tokens ++ [finish]) current = some previous) :
    ∃ next, Parse.resume? (tokens ++ [finish]) current = some next ∧ current ≤ next ∧
      StandsAt tokens finish next { c with rest := Cursor.resume previous c.rest } := by
  generalize hts : c.rest = ts
  induction ts generalizing current c previous with
  | nil =>
    have hpeek : c.peek = finish := by rw [Cursor.peek, hts, h.finish]; rfl
    refine ⟨current, ?_, Nat.le_refl _, h.bound, ?_, h.finish⟩
    · rw [resume?_eq _ h.peek, hpeek, if_pos hf]
    · rw [← h.rest, hts]
      rfl
  | cons token ts ih =>
    have hpeek : c.peek = token := by rw [Cursor.peek, hts]; rfl
    rw [resume?_eq _ h.peek, hpeek, if_neg (h.kind_ne ht hts), hp, Cursor.resume]
    simp only [Option.bind_eq_bind, Option.bind_some]
    split
    · exact ⟨current, rfl, Nat.le_refl _, h.bound, by rw [← h.rest, hts], h.finish⟩
    · obtain ⟨next, hnext, hle, hstands⟩ := ih (h.tail hts c.reported) (h.previous? hts) rfl
      exact ⟨next, hnext, by omega, hstands⟩

include ht hf in
/-- A skip looks outside the tokens only if it starts before the first of them and there is none. -/
theorem StandsAt.synchronize? (h : StandsAt tokens finish current c) (hpos : 0 < tokens.length) :
    ∃ next, Parse.synchronize? (tokens ++ [finish]) current = some next ∧ current ≤ next ∧
      (current < tokens.length → current < next) ∧ StandsAt tokens finish next c.synchronize := by
  unfold Parse.synchronize? Cursor.synchronize
  cases hr : c.rest with
  | nil =>
    have hbound := h.bound
    have hlt : ¬ current < tokens.length := by rw [h.lt_iff, hr]; simp
    have hpeek : c.peek = finish := by rw [Cursor.peek, hr, h.finish]; rfl
    obtain ⟨last, rfl⟩ : ∃ last, current = last + 1 := ⟨current - 1, by omega⟩
    obtain ⟨token, hlast⟩ : ∃ token, Parse.previous? (tokens ++ [finish]) (last + 1) = some token :=
      ⟨_, List.getElem?_eq_getElem (by rw [List.length_append]; omega)⟩
    refine ⟨last + 1, ?_, Nat.le_refl _, fun h => absurd h hlt, h⟩
    simp [Parse.advance?, resume?_eq _ h.peek, h.peek, hpeek, hf, hlast]
  | cons token ts =>
    obtain ⟨next, hnext, hle, hstands⟩ :=
      (h.tail hr c.reported).resume? ht hf (h.previous? hr)
    refine ⟨next, ?_, by omega, by omega, hstands⟩
    rw [h.advance? ht hr]
    exact hnext

end

/-! ## Loops -/

/-- The steps that rules of the grammar repeat. -/
inductive Repeated : {σ : Type} → (σ → Parse (Option σ)) → Prop
  | operators (level : Level) (rule : Rule) (depth : Nat) :
      Repeated (anotherOperator level (rule.at depth))
  | suffixes (depth : Nat) : Repeated (anotherSuffix (expression depth) (expression (depth + 1)))
  | elements (crowded : Option String) (depth : Nat) : Repeated (anotherItem crowded (expression depth))
  | parameters (crowded : Option String) (message : String) :
      Repeated (anotherItem crowded (expect .identifier message))
  | program (depth : Nat) : Repeated (anotherDeclaration atEnd (declaration depth))
  | block (depth : Nat) : Repeated (anotherDeclaration blockEnds (declaration depth))

theorem Repeated.proceeds {σ : Type} {step : σ → Parse (Option σ)} (h : Repeated step) :
    Proceeds step := by
  have inner (depth : Nat) : Advances 0 (expression depth) :=
    (Advances.expression depth).mono (Nat.zero_le 1)
  cases h with
  | operators level rule depth => exact .anotherOperator ((Advances.rule rule depth).mono (by omega)) level
  | suffixes depth => exact .anotherSuffix (inner depth) (inner (depth + 1))
  | elements crowded depth => exact .anotherItem (inner depth) crowded
  | parameters crowded message => exact .anotherItem ((Advances.expect _ _).mono (by omega)) crowded
  | program depth => exact .inProgram (.declaration depth)
  | block depth => exact .inBlock (.declaration depth)

/-! ## Attempts at declarations -/

/-- What a loop over declarations does from a position on: what each of its attempts gives, and how it
ends. An attempt is made before the end of the program. If it gives a result, that is at a later
position; if not, there was not enough depth left to begin with it. -/
inductive Attempts (tokens : List Token) (finish : Token) (ended : Parse Bool) (depth : Nat) :
    Nat → Cursor → List (Option Node) → EStateM.Result Interrupt Cursor Unit → Prop
  | ends {current : Nat} {c : Cursor} :
      ended c = .ok true c → Attempts tokens finish ended depth current c [] (.ok () c)
  | stops {current : Nat} {c : Cursor} :
      ended c = .ok false c → current < tokens.length → depth < 7 →
      declaration depth c = .error .tooDeep c →
      Attempts tokens finish ended depth current c [] (.error .tooDeep c)
  | again {current next : Nat} {c c' : Cursor} {node? : Option Node} {attempts : List (Option Node)}
      {result : EStateM.Result Interrupt Cursor Unit} :
      ended c = .ok false c → current < tokens.length → declaration depth c = .ok node? c' →
      StandsAt tokens finish next c' → current < next →
      Attempts tokens finish ended depth next c' attempts result →
      Attempts tokens finish ended depth current c (node? :: attempts) result

/-- What a loop over declarations gives, from its attempts and what was read before, in reverse. -/
def gathered (attempts : List (Option Node)) (done : List Node) :
    EStateM.Result Interrupt Cursor Unit → EStateM.Result Interrupt Cursor (List Node)
  | .ok _ c => .ok (attempts.reduceOption.reverse ++ done) c
  | .error e c => .error e c

/-- The rule of a declaration, before what happens when it stops. -/
def declarationBody (depth : Nat) : Parse Node :=
  declarationFrom (expression (depth + 5)) (statement (depth + 6)) (declaration (depth + 4))

theorem declaration_eq (depth : Nat) : declaration (depth + 7) = recovering (declarationBody depth) :=
  rfl

theorem Advances.declarationBody (depth : Nat) : Advances 1 (declarationBody depth) :=
  .declarationFrom ((Advances.expression _).mono (Nat.zero_le 1)) (advances_statements _).2
    (.declaration _)

/-- A declaration gives a result if there is depth enough to report that it does not parse. -/
theorem declaration_cases (depth : Nat) (c : Cursor) :
    (depth < 7 ∧ declaration depth c = .error .tooDeep c) ∨
      (7 ≤ depth ∧ ∃ node? c', declaration depth c = .ok node? c') := by
  match depth with
  | 0 | 1 | 2 | 3 | 4 | 5 | 6 => exact .inl ⟨by omega, rfl⟩
  | depth + 7 =>
    refine .inr ⟨by omega, ?_⟩
    rw [declaration_eq, recovering]
    split <;> exact ⟨_, _, rfl⟩

section

variable {tokens : List Token} {finish : Token} {ended : Parse Bool} {depth current : Nat} {c c' : Cursor}

/-- What a round of a loop over declarations can do. -/
theorem anotherDeclaration_cases {closed : Cursor → Bool}
    (he : ∀ c, ended c = .ok (closed c || c.atEnd) c) (done : List Node) (c : Cursor) :
    (ended c = .ok true c ∧ anotherDeclaration ended (declaration depth) done c = .ok none c) ∨
    ended c = .ok false c ∧ c.atEnd = false ∧
      ((depth < 7 ∧ declaration depth c = .error .tooDeep c ∧
          anotherDeclaration ended (declaration depth) done c = .error .tooDeep c) ∨
        ∃ node? c', declaration depth c = .ok node? c' ∧
          anotherDeclaration ended (declaration depth) done c = .ok (some (node?.toList ++ done)) c') := by
  unfold anotherDeclaration
  rw [he c]
  cases hs : closed c || c.atEnd with
  | true => exact .inl ⟨rfl, by rw [bind_eq_of_ok (he c), hs]; rfl⟩
  | false =>
    refine .inr ⟨rfl, (Bool.or_eq_false_iff.1 hs).2, ?_⟩
    rw [bind_eq_of_ok (he c), hs]
    rcases declaration_cases depth c with ⟨hd, h⟩ | ⟨-, node?, c', h⟩
    · exact .inl ⟨hd, h, bind_eq_of_error h⟩
    · exact .inr ⟨node?, c', h, bind_eq_of_ok h⟩

/-- A loop over declarations is its attempts. -/
theorem StandsAt.attempts (hf : finish.kind = .eof) (closed : Cursor → Bool)
    (he : ∀ c, ended c = .ok (closed c || c.atEnd) c) (h : StandsAt tokens finish current c)
    (done : List Node) :
    ∃ attempts result, Attempts tokens finish ended depth current c attempts result ∧
      declarationLoop ended depth done c = gathered attempts done result := by
  generalize hn : c.rest.length = n
  induction n using Nat.strongRecOn generalizing current c done with
  | _ n ih =>
    have hc : c.finish.kind = .eof := h.finish ▸ hf
    rw [declarationLoop, repeatWhile_eq (.anotherDeclaration (.declaration depth) closed he) done hc]
    rcases anotherDeclaration_cases he done c with
      ⟨hend, hround⟩ | ⟨hgo, hbefore, ⟨hdepth, hdeep, hround⟩ | ⟨node?, c', hdeclaration, hround⟩⟩
    · exact ⟨[], .ok () c, .ends hend, bind_eq_of_ok hround⟩
    all_goals
      have hrest : c.rest ≠ [] := fun hr => by simp [atEnd_of_rest hc hr] at hbefore
      have hlt := h.lt_iff.2 hrest
    · exact ⟨[], .error .tooDeep c, .stops hgo hlt hdepth hdeep, bind_eq_of_error hround⟩
    · have declares := Declares.declaration depth
      have reads := declares.reads hrest hdeclaration
      obtain ⟨next, -, hnext⟩ := h.leads (declares.advances.ok hdeclaration).1
      obtain ⟨attempts, result, hattempts, hloop⟩ := ih _ (hn ▸ reads) hnext (node?.toList ++ done) rfl
      refine ⟨node? :: attempts, result, .again hgo hlt hdeclaration hnext (h.lt hnext reads) hattempts, ?_⟩
      rw [bind_eq_of_ok hround]
      refine hloop.trans ?_
      cases result <;> cases node? <;> simp [gathered, List.reduceOption]

theorem Attempts.leads {attempts : List (Option Node)} {result : EStateM.Result Interrupt Cursor Unit}
    (h : Attempts tokens finish ended depth current c attempts result) (hr : result = .ok () c') :
    c.Leads c' := by
  induction h with
  | ends => cases hr; exact .refl _
  | stops => cases hr
  | again _ _ hdeclaration _ _ _ ih =>
    exact ((Declares.declaration depth).advances.ok hdeclaration).1.trans (ih hr)

theorem Attempts.last {attempts : List (Option Node)} {result : EStateM.Result Interrupt Cursor Unit}
    (h : Attempts tokens finish ended depth current c attempts result) (hr : result = .ok () c') :
    ended c' = .ok true c' := by
  induction h with
  | ends hend => cases hr; exact hend
  | stops => cases hr
  | again _ _ _ _ _ _ ih => exact ih hr

/-- An attempt that gives no declaration has been reported. -/
theorem Attempts.reported {attempts : List (Option Node)}
    {result : EStateM.Result Interrupt Cursor Unit}
    (h : Attempts tokens finish ended depth current c attempts result) (hr : result = .ok () c')
    (hlt : attempts.reduceOption.length < attempts.length) : c'.reported ≠ c.reported := by
  induction h with
  | ends | stops => simp at hlt
  | @again current next c c₁ node? attempts result hgo _ hdeclaration _ _ hrest ih =>
    have hl := ((Declares.declaration depth).advances.ok hdeclaration).1
    cases node? with
    | none =>
      have hdepth : 7 ≤ depth := by
        rcases declaration_cases depth c with ⟨-, hdeep⟩ | ⟨hdepth, -⟩
        · simp [hdeclaration] at hdeep
        · exact hdepth
      obtain ⟨depth, rfl⟩ := Nat.exists_eq_add_of_le' hdepth
      have hne := recovering_none ((Advances.declarationBody depth).mono (Nat.zero_le 1)) hdeclaration
      exact hl.reported_ne (hrest.leads hr) hne
    | some node =>
      have hne := ih hr (by simpa [List.reduceOption_cons_of_some] using hlt)
      exact hl.reported_ne_of_later (hrest.leads hr) hne

/-- A rule that has come to a position, no earlier than where it began. -/
def Stays {α : Type} (tokens : List Token) (finish : Token) (current : Nat) :
    EStateM.Result Interrupt Cursor α → Prop
  | .ok _ c | .error _ c => ∃ next, current ≤ next ∧ StandsAt tokens finish next c

theorem StandsAt.stays {α : Type} {n : Nat} {p : Parse α} (h : StandsAt tokens finish current c)
    (hp : Advances n p) : Stays tokens finish current (p c) := by
  cases hr : p c with
  | ok a c' => exact h.leads (hp.ok hr).1
  | error e c' => exact h.leads (hp.error hr).1

/-- What the parser does from a position on. -/
structure Progresses (tokens : List Token) (finish : Token) (current : Nat) (c : Cursor) : Prop where
  /-- No loop goes on for ever. -/
  repeats : ∀ {σ : Type} {step : σ → Parse (Option σ)}, Repeated step → ∀ state,
    Repeats step state c (repeatWhile step state c)
  /-- Both loops over declarations make their attempts before the end and get on with each. -/
  attempts : ∀ ended, ended = atEnd ∨ ended = blockEnds → ∀ depth, ∃ attempts result,
    Attempts tokens finish ended depth current c attempts result ∧
      declarationLoop ended depth [] c = gathered attempts [] result
  /-- No rule goes back, or past the end. -/
  expression : ∀ (rule : Rule) depth, Stays tokens finish current (rule.at depth c)
  statement : ∀ depth, Stays tokens finish current (Parse.statement depth c)
  declaration : ∀ depth, Stays tokens finish current (Parse.declaration depth c)
  /-- The next token is among the tokens. -/
  peek : (tokens ++ [finish])[current]? = some c.peek
  /-- Reading a token looks at tokens only. -/
  accept : ∀ wanted, ∃ token? next c', Parse.accept wanted c = .ok token? c' ∧
    accept? (tokens ++ [finish]) wanted current = some (token?, next) ∧ StandsAt tokens finish next c'
  /-- So does skipping after a declaration that stopped, also at the end. -/
  skips : current < tokens.length → ∀ depth e c', declarationBody depth c = .error e c' →
    ∃ stop next, StandsAt tokens finish stop c' ∧ synchronize? (tokens ++ [finish]) stop = some next ∧
      StandsAt tokens finish next c'.synchronize ∧ current < next

theorem StandsAt.progresses (ht : ∀ token ∈ tokens, token.kind ≠ .eof) (hf : finish.kind = .eof)
    (h : StandsAt tokens finish current c) : Progresses tokens finish current c where
  repeats hstep state := hstep.proceeds.repeats state (h.finish ▸ hf)
  attempts ended he depth := by
    rcases he with rfl | rfl
    · exact h.attempts hf (fun _ => false) (fun _ => rfl) []
    · exact h.attempts hf closes blockEnds_eq []
  expression rule depth := h.stays (.rule rule depth)
  statement depth := h.stays (advances_statements depth).2
  declaration depth := h.stays (Declares.declaration depth).advances
  peek := h.peek
  accept := h.accept? ht hf
  skips hlt depth e c' hstop := by
    obtain ⟨stop, hle, hstands⟩ := h.leads ((Advances.declarationBody depth).error hstop).1
    obtain ⟨next, hnext, hge, hgt, hthere⟩ := hstands.synchronize? ht hf (by omega)
    refine ⟨stop, next, hstands, hnext, hthere, ?_⟩
    -- a rule that stopped at the end has read something, another one is skipped over a token
    rcases Nat.lt_or_ge stop tokens.length with hbefore | hend
    · exact Nat.lt_of_le_of_lt hle (hgt hbefore)
    · omega

end

end GameScript.Parse

namespace GameScript

open Parse Grammar

/-- Parsing gets on and stays among the tokens, whatever they are. The program is what its attempts at
declarations gave, the last of which came to the end; if one gave nothing, there is a report. From
every position the rules behave as `Progresses` says. -/
theorem parseTokens_progresses (limits : Limits) (tokens : List Token) (finish : Token)
    (hd : 7 ≤ limits.parsing) (ht : ∀ token ∈ tokens, token.kind ≠ .eof) (hf : finish.kind = .eof) :
    (∃ attempts c,
      Attempts tokens finish atEnd limits.parsing 0 ⟨tokens, finish, []⟩ attempts (.ok () c) ∧
      StandsAt tokens finish tokens.length c ∧
      parseTokens limits tokens finish = ⟨attempts.reduceOption, c.reported⟩ ∧
      (attempts.reduceOption.length < attempts.length → c.reported ≠ [])) ∧
    ∀ current c, StandsAt tokens finish current c → Progresses tokens finish current c := by
  refine ⟨?_, fun current c h => h.progresses ht hf⟩
  have start := StandsAt.start tokens finish []
  obtain ⟨attempts, result, hattempts, hloop⟩ :=
    (start.progresses ht hf).attempts atEnd (.inl rfl) limits.parsing
  obtain ⟨nodes, c, hadds⟩ := declarationLoop_adds (c := ⟨tokens, finish, []⟩) hd hf
  rw [hadds []] at hloop
  cases result with
  | error e c' => cases hloop
  | ok _ c' =>
    obtain ⟨hnodes, rfl⟩ : nodes ++ [] = attempts.reduceOption.reverse ++ [] ∧ c = c' := by
      simpa [gathered] using hloop
    have hleads := hattempts.leads rfl
    have hnil : c.rest = [] := rest_of_atEnd ht hleads (by simpa [atEnd] using hattempts.last rfl)
    refine ⟨attempts, c, hattempts, ⟨Nat.le_refl _, by simp [hnil], hleads.finish⟩, ?_, ?_⟩
    · rw [parseTokens_of_loop (hadds []), hnodes]
      simp
    · exact hattempts.reported rfl

/-- The tokens of `{ print (`. -/
def unclosedBlock : List Token :=
  [word .leftBrace "\x7b", word .print "print", word .leftParen "("]

theorem unclosedBlock_progresses :
    (∀ token ∈ unclosedBlock, token.kind ≠ .eof) ∧
      ∃ attempts c,
        Attempts unclosedBlock (.finish 1) atEnd 993 0 ⟨unclosedBlock, .finish 1, []⟩ attempts
          (.ok () c) ∧
        StandsAt unclosedBlock (.finish 1) 3 c ∧ attempts.reduceOption = [] ∧
        c.reported = [Diagnostic.atToken (.finish 1) "Expect expression.",
          Diagnostic.atToken (.finish 1) "Expect '\x7d' after block."] := by
  have heof : ∀ token ∈ unclosedBlock, token.kind ≠ .eof := by decide
  obtain ⟨⟨attempts, c, hattempts, hend, hparsed, -⟩, -⟩ :=
    parseTokens_progresses .standard unclosedBlock (.finish 1) (by decide) heof rfl
  have hparse : parseTokens .standard unclosedBlock (.finish 1) = ⟨[],
      [Diagnostic.atToken (.finish 1) "Expect expression.",
        Diagnostic.atToken (.finish 1) "Expect '\x7d' after block."]⟩ := rfl
  rw [hparse, ParsedProgram.mk.injEq] at hparsed
  exact ⟨heof, attempts, c, hattempts, hend, hparsed.1.symm, hparsed.2.symm⟩

end GameScript
