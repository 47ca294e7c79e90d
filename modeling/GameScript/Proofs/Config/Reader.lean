import GameScript.Proofs.Config.Lexeme
import GameScript.Proofs.Steps
import Mathlib.Data.List.Forall2

/-! # Written tokens read one after the other

`Consumes rule tokens rest P` says that a rule reads the tokens before the rest, wherever they are
written, and that what it gives satisfies `P`. Blocks and lists consume as many items as they have
been written with. What tokens are is left open, but that each of them is read as what it is. -/

namespace GameScript.Config.Blueprint

/-! ## The next token -/

theorem Token.begins (token : Token) : ∃ c text, token.chars = c :: text ∧ c ∉ breaks := by
  have hclass : ∀ {c : Char}, Lexeme.isNameChar c ∨ Text.isDigit c → c ∉ breaks := by
    rintro c h hmem
    obtain ⟨hname, hdigit, -⟩ := breaks_class c hmem
    simp [hname, hdigit] at h
  cases token with
  | word keyword =>
    obtain ⟨c, text, htext, -, hname⟩ := keyword_begins keyword
    exact ⟨c, text, htext, hclass (.inl (hname c (by simp)))⟩
  | mark m => cases m <;> exact ⟨_, _, rfl, by decide⟩
  | name name => exact ⟨_, _, rfl, hclass (.inl (name.isNameChar _ (by simp [Name.chars])))⟩
  | number numeral measure =>
    obtain ⟨d, digits, hdigits, hd⟩ := numeral.digits_begin
    rw [Token.chars, numeral.chars_eq, hdigits]
    cases numeral.negative with
    | false => exact ⟨d, _, rfl, hclass (.inr hd)⟩
    | true => exact ⟨'-', _, rfl, by decide⟩
  | quoted glyphs => exact ⟨_, _, rfl, by decide⟩

theorem skip_comment {body : List Char} (h : '\n' ∉ body) (position : Position) :
    (∀ rest, ∃ position', Lexeme.skip true position (body ++ '\n' :: rest) =
      Lexeme.skip false position' rest) ∧
    ∃ position', Lexeme.skip true position body = (position', []) := by
  induction body generalizing position with
  | nil => exact ⟨fun rest => ⟨position.after '\n', by simp [Lexeme.skip]⟩, position, rfl⟩
  | cons c body ih =>
    obtain ⟨hc, hbody⟩ : c ≠ '\n' ∧ '\n' ∉ body := by simpa [eq_comm] using h
    have hnext := ih hbody (position.after c)
    simpa [Lexeme.skip, hc] using hnext

theorem skip_opening {opening : List Char} (h : opening ∈ openings) (position : Position)
    (rest : List Char) :
    ∃ position', Lexeme.skip false position (opening ++ rest) =
      Lexeme.skip true position' rest := by
  have hhash : Lexeme.isBlank '#' = false := by decide
  have hslash : Lexeme.isBlank '/' = false := by decide
  rcases List.mem_pair.mp h with rfl | rfl
  · exact ⟨_, by simp [Lexeme.skip, hhash]; rfl⟩
  · exact ⟨_, by simp [Lexeme.skip, hslash]; rfl⟩

theorem Spacing.skip {gap : List Char} (h : Spacing gap) (position : Position) (rest : List Char) :
    ∃ position', Lexeme.skip false position (gap ++ rest) = Lexeme.skip false position' rest := by
  induction h generalizing position with
  | nil => exact ⟨position, rfl⟩
  | @blank c gap hc _ ih =>
    obtain ⟨position', h⟩ := ih (position.after c)
    exact ⟨position', by simpa [Lexeme.skip, hc] using h⟩
  | @comment opening body gap hopening hbody _ ih =>
    obtain ⟨opened, hopen⟩ := skip_opening hopening position (body ++ '\n' :: (gap ++ rest))
    obtain ⟨closed, hclose⟩ := (skip_comment hbody opened).1 (gap ++ rest)
    obtain ⟨position', h⟩ := ih closed
    exact ⟨position', by simp [hopen, hclose, h]⟩

theorem Ending.skip {text : List Char} (h : Ending text) (position : Position) :
    ∃ position', Lexeme.skip false position text = (position', []) := by
  cases h with
  | spacing h =>
    obtain ⟨position', h⟩ := h.skip position []
    rw [List.append_nil] at h
    exact ⟨position', h⟩
  | @comment text opening body h hopening hbody =>
    obtain ⟨start, h⟩ := h.skip position (opening ++ body)
    obtain ⟨opened, hopen⟩ := skip_opening hopening start body
    obtain ⟨position', hbody⟩ := (skip_comment hbody opened).2
    exact ⟨position', by rw [h, hopen, hbody]⟩

/-! ## Tokens -/

/-- Tokens that are read as what they are wherever they may stand, if they end there. -/
class Lexical (τ : Type) where
  terminal : τ → Terminal
  chars : τ → List Char
  mark : Mark → τ
  name : Name → τ
  /-- The text is nothing that the token goes on into. -/
  Ends : τ → List Char → Prop
  /-- The words with a meaning of their own that the token is taken for where they may stand. -/
  shadows : τ → List Keyword
  terminal_mark (m : Mark) : terminal (mark m) = .mark m
  terminal_name (n : Name) : terminal (name n) = .name
  chars_name (n : Name) : chars (name n) = n.chars
  shadows_mark (m : Mark) : shadows (mark m) = []
  shadows_name (n : Name) : shadows (name n) = []
  begins (token : τ) : ∃ c text, chars token = c :: text ∧ c ∉ breaks
  read_chars {token : τ} {expected : Expected} {rest : List Char} (h : terminal token ∈ expected)
    (hshadows : ∀ keyword ∈ shadows token, .word keyword ∉ expected) (hends : Ends token rest) :
      Lexeme.read expected (chars token ++ rest) = some (terminal token, chars token)

open Lexical (terminal chars shadows)

instance : Lexical Token where
  terminal := Token.terminal
  chars := Token.chars
  mark := .mark
  name := .name
  Ends _ := Stops
  shadows _ := []
  terminal_mark _ := rfl
  terminal_name _ := rfl
  chars_name _ := rfl
  shadows_mark _ := rfl
  shadows_name _ := rfl
  begins := Token.begins
  read_chars h _ hends := Token.read_chars _ h hends

@[simp]
theorem terminal_token (token : Token) : terminal token = token.terminal := rfl

@[simp]
theorem chars_token (token : Token) : chars token = token.chars := rfl

variable {τ : Type} [Lexical τ]

/-- Tokens in brackets. -/
def enclosed (tokens : List τ) : List τ :=
  Lexical.mark .openBracket :: (tokens ++ [Lexical.mark .closeBracket])

/-- Rows of tokens with commas between them. -/
def joined : List (List τ) → List τ
  | [] => []
  | [row] => row
  | row :: rows => row ++ Lexical.mark .comma :: joined rows

theorem commas_eq (rows : List (List Token)) : commas rows = joined rows := by
  fun_induction commas rows with
  | case1 => rfl
  | case2 => rfl
  | case3 row rows h ih =>
    obtain ⟨row', rows, rfl⟩ := List.exists_cons_of_ne_nil h
    rw [ih]
    rfl

/-- A text in which these tokens are laid out, with blanks and comments between them. -/
inductive LaidOut : List τ → List Char → Prop
  | ending {text : List Char} (h : Ending text) : LaidOut [] text
  | token {gap rest : List Char} {token : τ} {tokens : List τ} (hgap : Spacing gap)
      (hends : Lexical.Ends token rest) (hrest : LaidOut tokens rest) :
      LaidOut (token :: tokens) (gap ++ (chars token ++ rest))

theorem Following.laidOut {tokens : List Token} {text : List Char} (h : Following tokens text) :
    LaidOut tokens text := by
  induction h with
  | ending h => exact .ending h
  | token hgap _ hrest ih => exact .token hgap hrest.stops ih

theorem Written.laidOut {tokens : List Token} {source : List Char} (h : Written tokens source) :
    LaidOut tokens source := by
  cases h with
  | source hgap hrest => exact .token hgap hrest.stops hrest.laidOut

theorem skip_token (token : τ) (position : Position) (rest : List Char) :
    Lexeme.skip false position (chars token ++ rest) = (position, chars token ++ rest) := by
  obtain ⟨c, text, htext, hc⟩ := Lexical.begins token
  have hblank : Lexeme.isBlank c = false := by
    rw [← Bool.not_eq_true]
    exact fun h => hc (blank_mem_breaks h)
  obtain ⟨hhash, hslash⟩ : c ≠ '#' ∧ c ≠ '/' := by
    constructor <;> rintro rfl <;> exact hc (by decide)
  rw [htext, List.cons_append, Lexeme.skip]
  simp [hblank, hhash, hslash]

/-- The reader has these tokens before it, and has read the first one. -/
def Reading : List τ → Reader → Prop
  | [], reader => reader.next = none
  | token :: rest, reader =>
    (∃ position, reader.next = some ⟨terminal token, String.ofList (chars token), position⟩) ∧
      LaidOut rest reader.rest

/-- What is expected includes the first token, if there is one, and nothing that it is taken for. -/
def Starts (expected : Expected) (tokens : List τ) : Prop := ∀ token ∈ tokens.head?,
  terminal token ∈ expected ∧ ∀ keyword ∈ shadows token, .word keyword ∉ expected

/-- What may come next includes the first token, if there is one. It is taken for nothing else. -/
def Next (expected : Expected) (tokens : List τ) : Prop :=
  ∀ token ∈ tokens.head?, terminal token ∈ expected ∧ shadows token = []

theorem Next.starts {expected : Expected} {tokens : List τ} (h : Next expected tokens) :
    Starts expected tokens := by
  intro token htoken
  obtain ⟨hmem, hnone⟩ := h token htoken
  exact ⟨hmem, by simp [hnone]⟩

theorem LaidOut.fetch {tokens : List τ} {text : List Char} {expected : Expected}
    (h : LaidOut tokens text) (hstart : Starts expected tokens) (position last : Position) :
    ∃ reader, Reader.fetch text position last expected = .ok reader ∧ Reading tokens reader := by
  cases h with
  | ending h =>
    obtain ⟨position', hskip⟩ := h.skip position
    unfold Reader.fetch
    rw [hskip]
    exact ⟨_, rfl, rfl⟩
  | @token gap rest token tokens hgap hends hrest =>
    obtain ⟨start, hskip⟩ := hgap.skip position (chars token ++ rest)
    rw [skip_token token start rest] at hskip
    obtain ⟨hmem, hshadows⟩ := hstart token rfl
    have hread := Lexical.read_chars hmem hshadows hends
    obtain ⟨c, more, htext, -⟩ := Lexical.begins token
    have hdrop : (chars token ++ rest).drop (chars token).length = rest := List.drop_left
    unfold Reader.fetch
    rw [hskip]
    rw [htext] at hread hdrop ⊢
    refine ⟨_, by rw [List.cons_append] at hread ⊢; simp only [hread]; rfl, ⟨start, ?_⟩, ?_⟩
    · rw [htext]
    · rw [List.cons_append] at hdrop
      rw [hdrop]
      exact hrest

theorem Written.fetch {tokens : List Token} {source : List Char} {expected : Expected}
    (h : Written tokens source) (hnext : Next expected tokens) (position last : Position) :
    ∃ reader, Reader.fetch source position last expected = .ok reader ∧ Reading tokens reader :=
  h.laidOut.fetch hnext.starts position last

theorem LaidOut.length_le {tokens : List τ} {text : List Char} (h : LaidOut tokens text) :
    tokens.length ≤ text.length := by
  induction h with
  | ending => exact Nat.zero_le _
  | @token gap rest token _ _ _ _ ih =>
    obtain ⟨c, more, htext, -⟩ := Lexical.begins token
    simp only [List.length_cons, List.length_append, htext]
    omega

theorem Reading.length_le {tokens : List τ} {reader : Reader} (h : Reading tokens reader) :
    tokens.length ≤ reader.rest.length + 1 := by
  cases tokens with
  | nil => exact Nat.zero_le _
  | cons token rest => exact Nat.succ_le_succ h.2.length_le

theorem Reading.head {tokens : List τ} {reader : Reader} (h : Reading tokens reader) :
    reader.next.map (·.terminal) = tokens.head?.map terminal := by
  cases tokens with
  | nil =>
    have hnone : reader.next = none := h
    rw [hnone]
    rfl
  | cons token rest =>
    obtain ⟨⟨position, hnext⟩, -⟩ := h
    rw [hnext]
    rfl

/-! ## Rules -/

/-- The rule reads the tokens before the rest and gives something with a property. -/
def Consumes {α : Type} (rule : Read α) (tokens rest : List τ) (P : α → Prop) : Prop :=
  ∀ reader, Reading (tokens ++ rest) reader →
    ∃ a reader', rule reader = .ok a reader' ∧ P a ∧ Reading rest reader'

namespace Consumes

variable {α β : Type} {rule : Read α} {tokens more rest : List τ} {P : α → Prop}
  {next : α → Read β} {Q : β → Prop} {token : τ}

theorem pure {a : α} (h : P a) : Consumes (Pure.pure a) [] rest P :=
  fun reader hreader => ⟨a, reader, rfl, h, hreader⟩

theorem mono {P' : α → Prop} (h : Consumes rule tokens rest P) (hP : ∀ a, P a → P' a) :
    Consumes rule tokens rest P' := by
  intro reader hreader
  obtain ⟨a, reader', hrule, ha, hrest⟩ := h reader hreader
  exact ⟨a, reader', hrule, hP a ha, hrest⟩

theorem bind (h : Consumes rule tokens (more ++ rest) P)
    (hnext : ∀ a, P a → Consumes (next a) more rest Q) :
    Consumes (rule >>= next) (tokens ++ more) rest Q := by
  intro reader hreader
  rw [List.append_assoc] at hreader
  obtain ⟨a, reader', hrule, ha, hmore⟩ := h reader hreader
  rw [bind_eq_of_ok hrule]
  exact hnext a ha reader' hmore

/-- A rule that reads one token, and what follows. -/
theorem head (h : Consumes rule [token] (more ++ rest) P)
    (hnext : ∀ a, P a → Consumes (next a) more rest Q) :
    Consumes (rule >>= next) (token :: more) rest Q := bind h hnext

/-- A rule that reads nothing, and what follows. -/
theorem look (h : Consumes rule [] (more ++ rest) P)
    (hnext : ∀ a, P a → Consumes (next a) more rest Q) : Consumes (rule >>= next) more rest Q :=
  bind h hnext

/-- A rule, and what is made of its result. -/
theorem map (h : Consumes rule tokens rest P) (hnext : ∀ a, P a → Consumes (next a) [] rest Q) :
    Consumes (rule >>= next) tokens rest Q := by
  have hboth := bind (h : Consumes rule tokens ([] ++ rest) P) hnext
  rwa [List.append_nil] at hboth

theorem discard (h : Consumes rule tokens rest P) :
    Consumes (Functor.discard rule) tokens rest fun _ => True :=
  map h fun _ _ => pure trivial

theorem peek : Consumes Read.peek [] rest (· = rest.head?.map terminal) :=
  fun reader hreader => ⟨_, reader, rfl, hreader.head, hreader⟩

/-- The next token is a mark. -/
theorem head_mark (m : Mark) (rest : List τ) :
    (Lexical.mark m :: rest).head?.map terminal = some (.mark m) :=
  congrArg some (Lexical.terminal_mark m)

theorem peekMark {m : Mark} : Consumes Read.peek [] (Lexical.mark m :: rest) (· = some (.mark m)) :=
  peek.mono fun _ hfound => hfound.trans (head_mark m rest)

/-- The way that is taken where the next token is a terminal. -/
theorem here {wanted : Terminal} {yes no : Read α}
    (h : (tokens ++ rest).head?.map terminal = some wanted)
    (hyes : Consumes yes tokens rest P) :
    Consumes (Read.peek >>= fun found => if found = some wanted then yes else no) tokens rest P :=
  look peek fun _ hfound => by rwa [if_pos (hfound.trans h)]

/-- The way that is taken where the next token is not that terminal. -/
theorem elsewhere {wanted : Terminal} {yes no : Read α}
    (h : (tokens ++ rest).head?.map terminal ≠ some wanted)
    (hno : Consumes no tokens rest P) :
    Consumes (Read.peek >>= fun found => if found = some wanted then yes else no) tokens rest P :=
  look peek fun _ hfound => by rwa [if_neg (hfound ▸ h)]

theorem get : Consumes MonadState.get [] rest (Reading rest) :=
  fun reader hreader => ⟨_, reader, rfl, hreader, hreader⟩

/-- There are enough characters left for all tokens. -/
theorem remaining : Consumes Read.remaining [] rest (rest.length ≤ ·) :=
  fun reader hreader => ⟨_, reader, rfl, hreader.length_le, hreader⟩

/-- A lexeme that is a token. -/
def Is (token : τ) (lexeme : Lexeme) : Prop :=
  lexeme.terminal = terminal token ∧ lexeme.text = String.ofList (chars token)

theorem takeStart {expected : Expected} (h : Starts expected rest) :
    Consumes (Read.take expected) [token] rest (Is token) := by
  rintro reader ⟨⟨position, hnext⟩, hrest⟩
  obtain ⟨reader', hfetch, hreader'⟩ := hrest.fetch h reader.position reader.last
  refine ⟨⟨terminal token, String.ofList (chars token), position⟩, reader', ?_, ⟨rfl, rfl⟩, hreader'⟩
  unfold Read.take
  rw [hnext]
  simp only [hfetch]

theorem expect {wanted : Terminal} {expected : Expected} (ht : terminal token = wanted)
    (h : Next expected rest) : Consumes (Read.expect wanted expected) [token] rest (Is token) :=
  here (congrArg some ht) (takeStart h.starts)

/-- A token that is read for nothing but itself, and what follows. -/
theorem pastStart {expected : Expected} {next : Read β} (h : Starts expected (more ++ rest))
    (hnext : Consumes next more rest Q) :
    Consumes (Functor.discard (Read.take expected) >>= fun _ => next) (token :: more) rest Q :=
  head (takeStart h).discard fun _ _ => hnext

theorem past {expected : Expected} {next : Read β} (h : Next expected (more ++ rest))
    (hnext : Consumes next more rest Q) :
    Consumes (Functor.discard (Read.take expected) >>= fun _ => next) (token :: more) rest Q :=
  pastStart h.starts hnext

theorem pastExpectedStart {wanted : Terminal} {expected : Expected} {next : Read β}
    (ht : terminal token = wanted) (h : Starts expected (more ++ rest))
    (hnext : Consumes next more rest Q) :
    Consumes (Functor.discard (Read.expect wanted expected) >>= fun _ => next) (token :: more)
      rest Q :=
  head (discard (here (congrArg some ht) (takeStart h))) fun _ _ => hnext

theorem pastExpected {wanted : Terminal} {expected : Expected} {next : Read β}
    (ht : terminal token = wanted) (h : Next expected (more ++ rest))
    (hnext : Consumes next more rest Q) :
    Consumes (Functor.discard (Read.expect wanted expected) >>= fun _ => next) (token :: more)
      rest Q :=
  pastExpectedStart ht h.starts hnext

theorem name {expected : Expected} (name : Name) (h : Next expected rest) :
    Consumes (Read.name expected) [Lexical.name name] rest (· = name.text) :=
  map (expect (Lexical.terminal_name name) h) fun _ hlexeme =>
    pure (hlexeme.2.trans (congrArg String.ofList (Lexical.chars_name name)))

end Consumes

/-! ## Blocks and lists -/

/-- Tokens that begin as is expected, but not with a closing mark. -/
def Begins (expected : Expected) (closing : Mark) (tokens : List τ) : Prop :=
  Starts expected tokens ∧ ∃ token more, tokens = token :: more ∧ terminal token ≠ .mark closing

/-- They begin with something that is taken for nothing else. -/
def Opens (expected : Expected) (closing : Mark) (tokens : List τ) : Prop :=
  Next expected tokens ∧ ∃ token more, tokens = token :: more ∧ terminal token ≠ .mark closing

namespace Next

variable {expected : Expected} {token : τ} {rest : List τ}

theorem cons (h : terminal token ∈ expected) (hnone : shadows token = []) :
    Next expected (token :: rest) := by
  rintro _ ⟨⟩
  exact ⟨h, hnone⟩

theorem nil : Next expected ([] : List τ) := by
  rintro _ ⟨⟩

theorem mark {m : Mark} (h : .mark m ∈ expected) : Next expected (Lexical.mark m :: rest) :=
  .cons (by rwa [Lexical.terminal_mark]) (Lexical.shadows_mark m)

theorem name {name : Name} (h : .name ∈ expected) : Next expected (Lexical.name name :: rest) :=
  .cons (by rwa [Lexical.terminal_name]) (Lexical.shadows_name name)

/-- What may not come next does not. -/
theorem ne (h : Next expected rest) {wanted : Terminal} (ht : wanted ∉ expected) :
    rest.head?.map terminal ≠ some wanted := by
  intro he
  obtain ⟨token, htoken, rfl⟩ := Option.map_eq_some_iff.mp he
  exact ht (h token htoken).1

theorem mono {expected' : Expected} (h : Next expected rest) (hsub : expected ⊆ expected') :
    Next expected' rest := fun token ht => ⟨hsub (h token ht).1, (h token ht).2⟩

end Next

/-- A keyword, a name and what is read after them. -/
theorem Consumes.titled {token : τ} {more rest : List τ} {wanted : Terminal} {expected : Expected}
    {rule : Read α} {build : String → α → β} {P : α → Prop} {Q : β → Prop}
    (ht : terminal token = wanted) (name : Name) (hnext : Next expected (more ++ rest))
    (hrule : Consumes rule more rest P) (hbuild : ∀ found, P found → Q (build name.text found)) :
    Consumes (do
      Functor.discard <| Read.expect wanted Expected.names
      let title ← Read.name expected
      return build title (← rule)) (token :: Lexical.name name :: more) rest Q := by
  refine .pastExpected ht (.name (by decide)) ?_
  refine .head (.name name hnext) fun title htitle => .map hrule fun found hfound => .pure ?_
  rw [htitle]
  exact hbuild found hfound

theorem Opens.cons {expected : Expected} {closing : Mark} {token : τ} {more : List τ}
    (h : terminal token ∈ expected) (hne : terminal token ≠ .mark closing)
    (hnone : shadows token = []) : Opens expected closing (token :: more) :=
  ⟨.cons h hnone, token, more, rfl, hne⟩

theorem Opens.name {expected : Expected} {closing : Mark} {name : Name} {more : List τ}
    (h : .name ∈ expected) : Opens expected closing (Lexical.name name :: more) :=
  ⟨.name h, _, more, rfl, by rw [Lexical.terminal_name]; nofun⟩

theorem Opens.begins {expected : Expected} {closing : Mark} {tokens : List τ}
    (h : Opens expected closing tokens) : Begins expected closing tokens := ⟨h.1.starts, h.2⟩

theorem Opens.next {expected : Expected} {closing : Mark} {tokens : List τ}
    (h : Opens expected closing tokens) (rest : List τ) : Next expected (tokens ++ rest) := by
  obtain ⟨hnext, token, more, rfl, -⟩ := h
  exact hnext

theorem Begins.starts {expected : Expected} {closing : Mark} {tokens : List τ}
    (h : Begins expected closing tokens) (rest : List τ) : Starts expected (tokens ++ rest) := by
  obtain ⟨hstart, token, more, rfl, -⟩ := h
  exact hstart

section Items

variable {α β : Type} {item : Read α} {items : List β} {tokens : β → List τ} {rest : List τ}
  {P : β → α → Prop} {expected after : Expected}

theorem next_items {closing : Mark} (hclosing : .mark closing ∈ expected)
    (hopens : ∀ b ∈ items, Opens expected closing (tokens b)) (rest : List τ) :
    Next expected (items.flatMap tokens ++ Lexical.mark closing :: rest) := by
  cases items with
  | nil => exact .mark hclosing
  | cons b items =>
    rw [List.flatMap_cons, List.append_assoc]
    exact (hopens b (by simp)).next _

theorem length_le_flatMap {closing : Mark}
    (hopens : ∀ b ∈ items, Opens expected closing (tokens b)) :
    items.length ≤ (items.flatMap tokens).length := by
  induction items with
  | nil => exact Nat.zero_le _
  | cons b items ih =>
    obtain ⟨⟨-, token, more, htokens, -⟩, hopens⟩ := List.forall_mem_cons.mp hopens
    have := ih hopens
    simp only [List.flatMap_cons, List.length_append, List.length_cons, htokens]
    omega

theorem Consumes.itemsFrom (hclosing : Expected.closeBracket ∈ expected)
    (hopens : ∀ b ∈ items, Opens expected .closeBracket (tokens b))
    (hitem : ∀ b ∈ items, ∀ rest, Next expected rest → Consumes item (tokens b) rest (P b))
    (hafter : Next after rest) {fuel : Nat} (hfuel : items.length < fuel) (done : List α) :
    Consumes (Read.itemsFrom item after fuel done)
      (items.flatMap tokens ++ [Lexical.mark .closeBracket]) rest
      fun found => ∃ new, found = done.reverse ++ new ∧ List.Forall₂ P items new := by
  induction items generalizing fuel done with
  | nil =>
    obtain ⟨fuel, rfl⟩ : ∃ n, fuel = n + 1 := ⟨fuel - 1, by simp at hfuel; omega⟩
    exact .here (Consumes.head_mark _ _) (.past hafter (.pure ⟨[], by simp, .nil⟩))
  | cons b items ih =>
    obtain ⟨fuel, rfl⟩ : ∃ n, fuel = n + 1 := ⟨fuel - 1, by simp at hfuel; omega⟩
    obtain ⟨⟨-, token, more, htokens, hne⟩, hopens⟩ := List.forall_mem_cons.mp hopens
    obtain ⟨hb, hitem⟩ := List.forall_mem_cons.mp hitem
    have hrest := next_items hclosing hopens rest
    rw [List.flatMap_cons, List.append_assoc]
    refine .elsewhere ?_ (.bind (hb _ (by simpa using hrest)) fun a ha => ?_)
    · rw [htokens]
      exact fun he => hne (Option.some.inj he)
    refine (ih hopens hitem (by simpa using hfuel) (a :: done)).mono ?_
    rintro found ⟨new, rfl, hnew⟩
    exact ⟨a :: new, by simp, .cons ha hnew⟩

/-- A block is read item by item. -/
theorem Consumes.block (hclosing : Expected.closeBracket ∈ expected)
    (hopens : ∀ b ∈ items, Opens expected .closeBracket (tokens b))
    (hitem : ∀ b ∈ items, ∀ rest, Next expected rest → Consumes item (tokens b) rest (P b))
    (hafter : Next after rest) :
    Consumes (Read.block expected after item) (enclosed (items.flatMap tokens)) rest
      (List.Forall₂ P items) := by
  have hrest := next_items hclosing hopens rest
  refine .pastExpected (Lexical.terminal_mark _) (by simpa using hrest) ?_
  refine .look .remaining fun left hleft => ?_
  -- Each item takes a token at least, so the characters left are fuel enough.
  have hshort := length_le_flatMap hopens
  refine (itemsFrom hclosing hopens hitem hafter ?_ []).mono ?_
  · simp only [List.length_append] at hleft
    omega
  · rintro found ⟨new, rfl, hnew⟩
    exact hnew

theorem joined_cons (row : List τ) (rows : List (List τ)) :
    ∃ more, joined (row :: rows) = row ++ more ∧ rows.length ≤ more.length := by
  induction rows generalizing row with
  | nil => exact ⟨[], by simp [joined], Nat.zero_le _⟩
  | cons row' rows ih =>
    obtain ⟨more, hmore, hlength⟩ := ih row'
    refine ⟨Lexical.mark .comma :: (row' ++ more), by rw [joined, hmore]; simp, ?_⟩
    simp only [List.length_cons, List.length_append]
    omega

theorem Begins.joined {closing : Mark} {row : List τ} (h : Begins expected closing row)
    (rows : List (List τ)) : Begins expected closing (joined (row :: rows)) := by
  obtain ⟨more, hmore, -⟩ := joined_cons row rows
  obtain ⟨hstart, token, tail, rfl, hne⟩ := h
  rw [hmore]
  exact ⟨hstart, token, tail ++ more, rfl, hne⟩

theorem length_le_joined {rows : List (List τ)} {row : List τ} (h : row ∈ rows) :
    row.length ≤ (joined rows).length := by
  fun_induction joined rows with
  | case1 => cases h
  | case2 first => exact Nat.le_of_eq (congrArg List.length (List.mem_singleton.mp h))
  | case3 first rows _ ih =>
    simp only [List.length_append, List.length_cons]
    rcases List.mem_cons.mp h with rfl | hmem
    · omega
    · have := ih hmem
      omega

/-- More may be expected, but no words with a meaning of their own. -/
theorem Begins.mono {expected expected' : Expected} {closing : Mark} {tokens : List τ}
    (h : Begins expected closing tokens) (hsub : expected ⊆ expected')
    (hwords : ∀ terminal ∈ expected', terminal ∈ expected ∨ Lexeme.keyword? terminal = none) :
    Begins expected' closing tokens := by
  refine ⟨fun token htoken => ?_, h.2⟩
  obtain ⟨hmem, hshadows⟩ := h.1 token htoken
  refine ⟨hsub hmem, fun keyword hkeyword hexpected => ?_⟩
  rcases hwords _ hexpected with hword | hnone
  · exact hshadows keyword hkeyword hword
  · cases hnone

theorem starts_joined {closing : Mark} (hclosing : .mark closing ∈ expected)
    (hbegins : ∀ b ∈ items, Begins expected closing (tokens b)) (rest : List τ) :
    Starts expected (joined (items.map tokens) ++ [Lexical.mark closing] ++ rest) := by
  rw [List.append_assoc]
  cases items with
  | nil => exact Next.starts (.mark hclosing)
  | cons b items => exact ((hbegins b (by simp)).joined _).starts _

theorem Consumes.listFrom {closing : Mark} (hcomma : closing ≠ .comma) {b : β}
    (hbegins : ∀ c ∈ items, Begins expected closing (tokens c))
    (hitem : ∀ c ∈ b :: items, ∀ rest, Next [.mark .comma, .mark closing] rest →
      Consumes item (tokens c) rest (P c))
    (hafter : Next after rest) {fuel : Nat} (hfuel : items.length < fuel) (done : List α) :
    Consumes (Read.listFrom item closing expected after fuel done)
      (joined ((b :: items).map tokens) ++ [Lexical.mark closing]) rest
      fun found => ∃ new, found = done.reverse ++ new ∧ List.Forall₂ P (b :: items) new := by
  obtain ⟨fuel, rfl⟩ : ∃ n, fuel = n + 1 := ⟨fuel - 1, by omega⟩
  induction items generalizing b fuel done with
  | nil =>
    refine .bind (hitem b (by simp) _ (.mark (by simp))) fun a ha => ?_
    refine .look .peekMark fun found hfound => ?_
    subst hfound
    show Consumes (if closing = .comma then _ else if closing = closing then _ else _) _ _ _
    rw [if_neg hcomma, if_pos rfl]
    exact .past hafter (.pure ⟨[a], by simp, .cons ha .nil⟩)
  | cons c items ih =>
    obtain ⟨hb, hitem⟩ := List.forall_mem_cons.mp hitem
    obtain ⟨hc, hbegins⟩ := List.forall_mem_cons.mp hbegins
    obtain ⟨fuel, rfl⟩ : ∃ n, fuel = n + 1 := ⟨fuel - 1, by simp at hfuel; omega⟩
    have hstart : Starts expected
        (joined ((c :: items).map tokens) ++ [Lexical.mark closing] ++ rest) := by
      rw [List.append_assoc]
      exact (hc.joined _).starts _
    rw [List.map_cons, List.map_cons, joined, List.append_assoc]
    · refine .bind (hb _ (.mark (by simp))) fun a ha => ?_
      refine .look .peekMark fun found hfound => ?_
      subst hfound
      refine .pastStart hstart ?_
      refine (ih hbegins hitem (a :: done) fuel (by simpa using hfuel)).mono ?_
      rintro found ⟨new, rfl, hnew⟩
      exact ⟨a :: new, by simp, .cons ha hnew⟩
    · simp

/-- A list is read item by item, with the commas between them. -/
theorem Consumes.list {closing : Mark} (hcomma : closing ≠ .comma)
    (hbegins : ∀ b ∈ items, Begins expected closing (tokens b))
    (hitem : ∀ b ∈ items, ∀ rest, Next [.mark .comma, .mark closing] rest →
      Consumes item (tokens b) rest (P b))
    (hafter : Next after rest) :
    Consumes (Read.list item closing expected after)
      (joined (items.map tokens) ++ [Lexical.mark closing]) rest (List.Forall₂ P items) := by
  cases items with
  | nil => exact .here (Consumes.head_mark _ _) (.past hafter (.pure .nil))
  | cons b items =>
    obtain ⟨hb, hbegins⟩ := List.forall_mem_cons.mp hbegins
    obtain ⟨more, hmore, hlength⟩ := joined_cons (tokens b) (items.map tokens)
    refine .elsewhere ?_ (.look .remaining fun left hleft => ?_)
    · obtain ⟨-, token, tail, htokens, hne⟩ := hb.joined (items.map tokens)
      rw [List.map_cons, htokens]
      exact fun he => hne (Option.some.inj he)
    · refine (listFrom hcomma hbegins hitem hafter ?_ []).mono ?_
      · rw [List.map_cons, hmore] at hleft
        simp only [List.length_append, List.length_map] at hleft hlength
        omega
      · rintro found ⟨new, rfl, hnew⟩
        exact hnew

end Items

end GameScript.Config.Blueprint
