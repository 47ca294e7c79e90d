import GameScript.Proofs.Scanner.Coverage
import Mathlib.Tactic.FinCases

/-! # Scanning undoes rendering

Texts of tokens are put one after the other, with blanks and comments between them. If a blank
stands behind each text, the source that they make is scanned to just these tokens, whatever the
comments hold. -/

namespace GameScript

/-- What a token says, its line aside. -/
def Token.content (token : Token) : TokenKind × Json × Json :=
  (token.kind, token.lexeme, token.literal)

namespace Lexical

open Piece (isBlankChar isDigitChar isLetterChar isWordChar)

/-! ## Layouts -/

/-- The text of a token, with its kind and the value that it stands for. -/
structure Lexeme where
  kind : TokenKind
  text : List Char
  literal : Json
  valid : TokenText kind text literal

/-- What the token of a text says. -/
def Lexeme.content (lexeme : Lexeme) : TokenKind × Json × Json :=
  (lexeme.kind, .string (String.ofList lexeme.text), lexeme.literal)

/-- A blank, a comment with the end of its line, or a comment up to its end mark. -/
inductive Filler where
  | blank (c : Char) (hc : isBlankChar c = true)
  | lineComment (opening body : List Char) (hopening : opening ∈ [['/', '/'], ['#']])
      (hbody : '\n' ∉ body)
  | blockComment (body : List Char) (hbody : ¬ ['*', '/'] <:+: body)

def Filler.text : Filler → List Char
  | .blank c _ => [c]
  | .lineComment opening body _ _ => opening ++ body ++ ['\n']
  | .blockComment body _ => ['/', '*'] ++ body ++ ['*', '/']

/-- What may stand behind a token: a blank, and then whatever means nothing. -/
structure Separator where
  first : Char
  blank : isBlankChar first = true
  rest : List Filler

def Separator.text (separator : Separator) : List Char :=
  separator.first :: separator.rest.flatMap Filler.text

/-- Tokens as a source writes them: what stands in front of them, the tokens with what stands behind
each of them, and perhaps one more with which the source ends. -/
structure Layout where
  leading : List Filler
  items : List (Lexeme × Separator)
  last : Option Lexeme

namespace Layout

def text (layout : Layout) : List Char :=
  layout.leading.flatMap Filler.text ++
    (layout.items.flatMap fun (lexeme, separator) => lexeme.text ++ separator.text) ++
    layout.last.toList.flatMap Lexeme.text

def lexemes (layout : Layout) : List Lexeme := layout.items.map Prod.fst ++ layout.last.toList

end Layout

/-! ## One token -/

section Token

variable {c : Char} {rest : List Char}

theorem first_plain (hc : isWordChar c = true) (rest : List Char) : Piece.first c rest =
    if isDigitChar c then Piece.numberPiece c rest else Piece.wordPiece c rest := by
  have hsingle : TokenKind.single? c = none := by
    unfold TokenKind.single?
    split <;> first | rfl | cases hc
  have hpair : TokenKind.equalsPair? c = none := by
    unfold TokenKind.equalsPair?
    split <;> first | rfl | cases hc
  have hblank : isBlankChar c = false := by
    by_contra hb
    simp only [isBlankChar, Bool.not_eq_false, Bool.or_eq_true, decide_eq_true_eq] at hb
    rcases hb with ((rfl | rfl) | rfl) | rfl <;> cases hc
  have hslash : c ≠ '/' := by rintro rfl; cases hc
  have hhash : c ≠ '#' := by rintro rfl; cases hc
  have hquote : c ≠ '"' := by rintro rfl; cases hc
  by_cases hdigit : isDigitChar c = true
  · simp [Piece.first, hsingle, hpair, hslash, hhash, hblank, hquote, hdigit]
  · have hletter : isLetterChar c = true := (Bool.or_eq_true_iff.mp hc).resolve_right hdigit
    simp [Piece.first, hsingle, hpair, hslash, hhash, hblank, hquote, hdigit, hletter]

theorem first_digit (hc : isDigitChar c = true) (rest : List Char) :
    Piece.first c rest = Piece.numberPiece c rest := by
  rw [first_plain (Bool.or_eq_true_iff.mpr (.inr hc)), if_pos hc]

theorem first_letter (hc : isLetterChar c = true) (rest : List Char) :
    Piece.first c rest = Piece.wordPiece c rest := by
  have hdigit : ¬ isDigitChar c = true := fun hd => by
    rw [digit_not_letter hd] at hc
    cases hc
  rw [first_plain (Bool.or_eq_true_iff.mpr (.inl hc)), if_neg hdigit]

/-- A text that is all of a source is its one token. -/
theorem first_alone {kind : TokenKind} {text : List Char} {literal : Json}
    (h : TokenText kind text literal) : ∃ c rest, text = c :: rest ∧
      Piece.first c rest = (.token kind text literal, []) := by
  cases h with
  | operator h =>
    suffices hall : ∀ entry ∈ operators, ∃ c rest, entry.1 = c :: rest ∧
        Piece.first c rest = (.token entry.2 entry.1 .null, []) from hall _ h
    intro entry hentry
    fin_cases hentry <;> exact ⟨_, _, rfl, rfl⟩
  | @word c rest hc hrest =>
    refine ⟨c, rest, rfl, ?_⟩
    rw [first_letter hc, Piece.wordPiece, List.takeWhile_eq_self_iff.mpr hrest,
      List.dropWhile_eq_nil_iff.mpr hrest]
  | @whole digits hne hdigits =>
    obtain ⟨c, rest, rfl⟩ := List.exists_cons_of_ne_nil hne
    obtain ⟨hc, hrest⟩ := List.forall_mem_cons.mp hdigits
    refine ⟨c, rest, rfl, ?_⟩
    rw [first_digit hc, Piece.numberPiece, List.takeWhile_eq_self_iff.mpr hrest,
      List.dropWhile_eq_nil_iff.mpr hrest]
  | @fraction whole digits hne hwhole hne' hdigits =>
    obtain ⟨c, rest, rfl⟩ := List.exists_cons_of_ne_nil hne
    obtain ⟨d, more, rfl⟩ := List.exists_cons_of_ne_nil hne'
    obtain ⟨hc, hrest⟩ := List.forall_mem_cons.mp hwhole
    obtain ⟨hd, hmore⟩ := List.forall_mem_cons.mp hdigits
    have hpoint : isDigitChar '.' = false := rfl
    refine ⟨c, rest ++ '.' :: d :: more, rfl, ?_⟩
    rw [first_digit hc, Piece.numberPiece, List.takeWhile_append_of_pos hrest,
      List.dropWhile_append_of_pos hrest]
    simp [hpoint, hd, List.takeWhile_eq_self_iff.mpr hmore, List.dropWhile_eq_nil_iff.mpr hmore]
  | @string body hbody =>
    refine ⟨'"', body ++ ['"'], rfl, ?_⟩
    have hplain : ∀ d ∈ body, decide (d ≠ '"') = true := fun d hd =>
      decide_eq_true fun he => hbody (he ▸ hd)
    change Piece.stringPiece (body ++ ['"']) = _
    simp only [Piece.stringPiece]
    rw [List.takeWhile_append_of_pos hplain, List.dropWhile_append_of_pos hplain]
    simp

theorem blank_separates (hc : isBlankChar c = true) : Piece.Separates c := by
  simp only [isBlankChar, Bool.or_eq_true, decide_eq_true_eq] at hc
  rcases hc with ((rfl | rfl) | rfl) | rfl <;> constructor <;> decide

theorem first_blank (hc : isBlankChar c = true) (rest : List Char) :
    Piece.first c rest = (.blank [c], rest) := by
  simp only [isBlankChar, Bool.or_eq_true, decide_eq_true_eq] at hc
  rcases hc with ((rfl | rfl) | rfl) | rfl <;> rfl

theorem untilCommentEnd_of_not_infix {body : List Char} (h : ¬ ['*', '/'] <:+: body)
    (rest : List Char) :
    Piece.untilCommentEnd (body ++ '*' :: '/' :: rest) = some (body, rest) := by
  induction body with
  | nil => rfl
  | cons c body ih =>
    rw [List.infix_cons_iff, not_or] at h
    -- What follows the body starts with a star, so no end mark begins in it.
    have hno : ∀ more, c = '*' → body ++ '*' :: '/' :: rest = '/' :: more → False := by
      intro more hc hmore
      cases body with
      | nil => cases hmore
      | cons d body =>
        obtain ⟨rfl, -⟩ := List.cons.inj hmore
        exact h.1 ⟨body, by rw [hc]; rfl⟩
    rw [List.cons_append, Piece.untilCommentEnd.eq_3 _ _ hno, ih h.2]
    rfl

end Token

/-! ## Many tokens -/

/-- Pieces that are these tokens in their order, with nothing but blanks and comments between. -/
inductive Spells : List Piece → List Lexeme → Prop
  | nil : Spells [] []
  | token (lexeme : Lexeme) {pieces : List Piece} {lexemes : List Lexeme}
      (h : Spells pieces lexemes) :
      Spells (.token lexeme.kind lexeme.text lexeme.literal :: pieces) (lexeme :: lexemes)
  | blank (text : List Char) {pieces : List Piece} {lexemes : List Lexeme}
      (h : Spells pieces lexemes) : Spells (.blank text :: pieces) lexemes
  | comment (text : List Char) {pieces : List Piece} {lexemes : List Lexeme}
      (h : Spells pieces lexemes) : Spells (.comment text :: pieces) lexemes

section Spells

variable {rest : List Char} {lexemes : List Lexeme}

theorem Spells.last (lexeme : Lexeme) : Spells (Piece.ofSource lexeme.text) [lexeme] := by
  obtain ⟨c, more, htext, hfirst⟩ := first_alone lexeme.valid
  have hnil : Piece.ofSource [] = [] := rfl
  rw [htext, Piece.ofSource_cons, hfirst, hnil]
  exact .token lexeme .nil

/-- A blank behind a token keeps it apart from whatever follows. -/
theorem Spells.before_blank (lexeme : Lexeme) {x : Char} (hx : isBlankChar x = true)
    (h : Spells (Piece.ofSource (x :: rest)) lexemes) :
    Spells (Piece.ofSource (lexeme.text ++ x :: rest)) (lexeme :: lexemes) := by
  obtain ⟨c, more, htext, hfirst⟩ := first_alone lexeme.valid
  have hbreak : Piece.first c (more ++ x :: rest) = _ :=
    Piece.first_break (blank_separates hx) rest (by rw [hfirst]; rfl)
      (by rw [hfirst]; exact .inr (.inl rfl))
  rw [htext, List.cons_append, Piece.ofSource_cons, hbreak, hfirst]
  exact .token lexeme h

theorem Spells.after_blank {c : Char} (hc : isBlankChar c = true)
    (h : Spells (Piece.ofSource rest) lexemes) :
    Spells (Piece.ofSource (c :: rest)) lexemes := by
  rw [Piece.ofSource_cons, first_blank hc]
  exact .blank [c] h

theorem Spells.after_lineComment {opening body : List Char}
    (hopening : opening ∈ [['/', '/'], ['#']]) (hbody : '\n' ∉ body)
    (h : Spells (Piece.ofSource rest) lexemes) :
    Spells (Piece.ofSource (opening ++ body ++ '\n' :: rest)) lexemes := by
  have hplain : ∀ d ∈ body, decide (d ≠ '\n') = true := fun d hd =>
    decide_eq_true fun he => hbody (he ▸ hd)
  have hline : Piece.lineComment opening (body ++ '\n' :: rest) =
      (.comment (opening ++ body), '\n' :: rest) := by
    rw [Piece.lineComment, List.takeWhile_append_of_pos hplain, List.dropWhile_append_of_pos hplain]
    simp
  have hnewline : Spells (Piece.ofSource ('\n' :: rest)) lexemes := .after_blank rfl h
  rcases List.mem_pair.mp hopening with rfl | rfl
  · have hfirst : Piece.first '/' ('/' :: (body ++ '\n' :: rest)) = _ := hline
    rw [List.append_assoc, List.cons_append, Piece.ofSource_cons, List.singleton_append, hfirst]
    exact .comment _ hnewline
  · have hfirst : Piece.first '#' (body ++ '\n' :: rest) = _ := hline
    rw [List.append_assoc, List.singleton_append, Piece.ofSource_cons, hfirst]
    exact .comment _ hnewline

theorem Spells.after_blockComment {body : List Char} (hbody : ¬ ['*', '/'] <:+: body)
    (h : Spells (Piece.ofSource rest) lexemes) :
    Spells (Piece.ofSource ('/' :: '*' :: (body ++ '*' :: '/' :: rest))) lexemes := by
  have hfirst : Piece.first '/' ('*' :: (body ++ '*' :: '/' :: rest)) =
      (.comment ('/' :: '*' :: body ++ ['*', '/']), rest) := by
    change Piece.blockComment _ = _
    rw [Piece.blockComment, untilCommentEnd_of_not_infix hbody]
  rw [Piece.ofSource_cons, hfirst]
  exact .comment _ h

theorem Spells.after_filler (filler : Filler) (h : Spells (Piece.ofSource rest) lexemes) :
    Spells (Piece.ofSource (filler.text ++ rest)) lexemes := by
  cases filler with
  | blank c hc => exact .after_blank hc h
  | lineComment opening body hopening hbody =>
    rw [Filler.text, List.append_assoc]
    exact .after_lineComment hopening hbody h
  | blockComment body hbody =>
    have htext : (Filler.blockComment body hbody).text ++ rest =
        '/' :: '*' :: (body ++ '*' :: '/' :: rest) := by simp [Filler.text]
    rw [htext]
    exact .after_blockComment hbody h

theorem Spells.after_fillers (fillers : List Filler) (h : Spells (Piece.ofSource rest) lexemes) :
    Spells (Piece.ofSource (fillers.flatMap Filler.text ++ rest)) lexemes := by
  induction fillers with
  | nil => exact h
  | cons filler fillers ih =>
    rw [List.flatMap_cons, List.append_assoc]
    exact ih.after_filler filler

theorem Spells.before_separator (lexeme : Lexeme) (separator : Separator)
    (h : Spells (Piece.ofSource rest) lexemes) :
    Spells (Piece.ofSource (lexeme.text ++ separator.text ++ rest)) (lexeme :: lexemes) := by
  rw [List.append_assoc]
  exact .before_blank lexeme separator.blank (.after_blank separator.blank (h.after_fillers _))

theorem Spells.items (items : List (Lexeme × Separator))
    (h : Spells (Piece.ofSource rest) lexemes) :
    Spells (Piece.ofSource ((items.flatMap fun (lexeme, separator) =>
      lexeme.text ++ separator.text) ++ rest)) (items.map Prod.fst ++ lexemes) := by
  induction items with
  | nil => exact h
  | cons item items ih =>
    rw [List.flatMap_cons, List.append_assoc]
    exact ih.before_separator item.1 item.2

theorem Layout.spells (layout : Layout) :
    Spells (Piece.ofSource layout.text) layout.lexemes := by
  have hlast : Spells (Piece.ofSource (layout.last.toList.flatMap Lexeme.text))
      layout.last.toList := by
    cases layout.last with
    | none => exact .nil
    | some lexeme =>
      rw [Option.toList_some, List.flatMap_singleton]
      exact .last lexeme
  rw [Layout.text, List.append_assoc]
  exact (hlast.items layout.items).after_fillers layout.leading

theorem Spells.scan {pieces : List Piece} (h : Spells pieces lexemes) (line : Int) :
    (Scan.ofPieces line pieces).diagnostics = [] ∧
      (Scan.ofPieces line pieces).tokens.map Token.content = lexemes.map Lexeme.content := by
  induction h generalizing line with
  | nil => exact ⟨rfl, rfl⟩
  | token lexeme _ ih =>
    obtain ⟨hdiagnostics, htokens⟩ := ih (line + (lexeme.text.count '\n' : Nat))
    exact ⟨hdiagnostics, congrArg _ htokens⟩
  | blank text _ ih => exact ih _
  | comment text _ ih => exact ih _

end Spells

end Lexical

/-- The scan of a layout reports nothing, and its tokens are those of the layout, each with its
kind, its text and its value, and one more that ends the program. -/
theorem Scan.ofSource_layout (layout : Lexical.Layout) :
    (ofSource (String.ofList layout.text)).diagnostics = [] ∧
      (ofSource (String.ofList layout.text)).allTokens.map Token.content =
        layout.lexemes.map Lexical.Lexeme.content ++ [(.eof, .string "", .null)] := by
  have hscan := layout.spells.scan 1
  rw [allTokens, List.map_append, ofSource, String.toList_ofList, hscan.2]
  exact ⟨hscan.1, rfl⟩

/-- A slash and a string of two slashes, with comments that open other comments. -/
def Lexical.slashes : Layout where
  leading := [.lineComment ['#'] ['/', '*'] (by decide) (by decide)]
  items := [(⟨.slash, ['/'], .null, .operator (by decide)⟩,
    ⟨'\t', rfl, [.blockComment ['"', '/', '*', '*'] (by decide)]⟩)]
  last := some ⟨.string, ['"', '/', '/', '"'], .string "//",
    TokenText.string (show _ ∉ [_, _] by decide)⟩

theorem Scan.ofSource_slashes :
    (ofSource "#/*\n/\t/*\"/***/\"//\"").diagnostics = [] ∧
      (ofSource "#/*\n/\t/*\"/***/\"//\"").allTokens.map Token.content =
        [(.slash, .string "/", .null), (.string, .string "\"//\"", .string "//"),
          (.eof, .string "", .null)] :=
  ofSource_layout Lexical.slashes

end GameScript
