import GameScript.Proofs.Decimal.Magnitude
import GameScript.Proofs.Printing.SExpr
import GameScript.Proofs.Safety.Tree
import GameScript.Proofs.Scanner.Coverage
import GameScript.Tree.Printer

/-! # What stands alone in a printed tree

The smallest parts of a printed tree are the words of the printer, the spellings of operators, names
and constants. A word of the printer is never the spelling of an operator, a name is never the text
of a constant, and two constants differ in their texts if they are finite. -/

namespace GameScript

open Lexical (TokenText)

/-! ## Tokens of a source -/

/-- A token that the scanner can give. -/
structure Token.Scanned (token : Token) : Prop where
  written : token.Written
  spelling : token.kind = .eof ∧ token.literal = .null ∨
    ∃ text, TokenText token.kind text token.literal ∧ token.lexeme = .string (String.ofList text)

theorem Lexical.Covered.spelled {before source : List Char} {tokens : List Token}
    {diagnostics : List Diagnostic} (h : Covered before source tokens diagnostics) :
    ∀ token ∈ tokens, ∃ text, TokenText token.kind text token.literal ∧
      token.lexeme = .string (String.ofList text) := by
  induction h with
  | ending => nofun
  | token _ htext _ _ _ ih => exact List.forall_mem_cons.mpr ⟨⟨_, htext, rfl⟩, ih⟩

theorem Scan.ofSource_scanned (source : String) :
    ∀ token ∈ (ofSource source).tokens, token.Scanned := fun token h =>
  ⟨ofSource_written source token h,
    .inr ((Lexical.ofPieces_covered [] source.toList).spelled token h)⟩

theorem Token.finish_scanned (line : Int) : (Token.finish line).Scanned :=
  ⟨Token.finish_written line, .inl ⟨rfl, rfl⟩⟩

/-- Every token but the one that ends a program is written somehow. -/
theorem Token.Scanned.shape {kind : TokenKind} {lexeme literal line : Json}
    (h : Token.Scanned ⟨kind, lexeme, literal, line⟩) (hkind : kind ≠ .eof) :
    ∃ text, TokenText kind text literal ∧ lexeme = .string (String.ofList text) :=
  h.spelling.resolve_left fun heof => hkind heof.1

/-- A token without its line. -/
def Token.bare (token : Token) : Token := { token with line := .null }

/-- The texts with a kind of their own. -/
def spellings : List (String × TokenKind) :=
  Lexical.operators.map (fun entry => (String.ofList entry.1, entry.2)) ++ TokenKind.words

/-- The token that a text spells, without its line. A text without a kind of its own is a name. -/
def Token.spelled (text : String) : Token :=
  ⟨(spellings.lookup text).getD .identifier, .string text, .null, .null⟩

theorem lookup_operator {text : List Char} {kind : TokenKind}
    (h : (text, kind) ∈ Lexical.operators) :
    spellings.lookup (String.ofList text) = some kind := by
  have hall : ∀ entry ∈ Lexical.operators,
      spellings.lookup (String.ofList entry.1) = some entry.2 := by decide +kernel
  exact hall _ h

theorem lookup_word {c : Char} {rest : List Char} (hc : Piece.isLetterChar c = true) :
    spellings.lookup (String.ofList (c :: rest)) =
      TokenKind.words.lookup (String.ofList (c :: rest)) := by
  rw [spellings, List.lookup_append, List.lookup_eq_none_iff.mpr, Option.none_or]
  intro entry hentry
  obtain ⟨⟨text, kind⟩, hop, rfl⟩ := List.mem_map.mp hentry
  obtain ⟨d, more, rfl, hletter, -⟩ := Lexical.operator_begins hop
  simp only [bne_iff_ne, ne_eq, String.ofList_inj]
  rintro ⟨⟩
  rw [hc] at hletter
  cases hletter

/-- The kinds of tokens that have a literal, and of the one that ends a program. -/
def unspelledKinds : List TokenKind := [.number, .string, .eof]

/-- A token is what its text spells, if it has no literal. -/
theorem Token.Scanned.spelled_text {token : Token} (h : token.Scanned)
    (hkind : token.kind ∉ unspelledKinds) : Token.spelled token.text = token.bare := by
  obtain ⟨kind, lexeme, literal, line⟩ := token
  obtain ⟨text, htext, rfl⟩ := h.shape (by rintro rfl; simp [unspelledKinds] at hkind)
  cases htext with
  | operator hop =>
    change Token.spelled (String.ofList text) = _
    rw [Token.spelled, lookup_operator hop]
    rfl
  | word hc hrest =>
    change Token.spelled (String.ofList _) = _
    rw [Token.spelled, lookup_word hc]
    rfl
  | whole => exact absurd (by simp [unspelledKinds]) hkind
  | fraction => exact absurd (by simp [unspelledKinds]) hkind
  | string => exact absurd (by simp [unspelledKinds]) hkind

/-! ## Words of the printer and operators -/

/-- The heads of printed forms. -/
def heads : List String :=
  ["group", "=", "call", "array", "index", "index=", ";", "print", "var", "block", "if", "if-else",
    "while", "fun", "return"]

/-- The kinds of operators of one value and of two. -/
def operatorKinds : List TokenKind :=
  [.bang, .minus, .bangEqual, .equalEqual, .greater, .greaterEqual, .less, .lessEqual, .plus,
    .slash, .star, .percent, .or, .and]

theorem TokenKind.isBinary.mem {kind : TokenKind} (h : kind.isBinary) : kind ∈ operatorKinds := by
  rcases h with h | h | h | h | h | h | h | h | h | h | h <;> rw [h] <;> decide

/-- No operator is spelled like a head. -/
theorem Token.Scanned.notMem_heads {token : Token} (h : token.Scanned)
    (hkind : token.kind ∈ operatorKinds) : token.text ∉ heads := by
  have hplain : ∀ kind ∈ operatorKinds, kind ∉ unspelledKinds ∧ kind ≠ .identifier := by decide
  obtain ⟨hspelled, hnamed⟩ := hplain _ hkind
  have htoken : (spellings.lookup token.text).getD .identifier = token.kind :=
    congrArg Token.kind (h.spelled_text hspelled)
  have hall : ∀ head ∈ heads, (spellings.lookup head).getD .identifier ∉ operatorKinds := by
    decide +kernel
  exact fun hmem => hall _ hmem (by rwa [htoken])

theorem isAtom_head {head : String} (h : head ∈ heads) : SExpr.IsAtom head := by
  have hall : ∀ head ∈ heads, head.toList ≠ [] ∧ SExpr.Unbroken head.toList := by
    decide +kernel
  exact .word (hall head h).1 (hall head h).2

theorem isBreak_word {c : Char} (h : Piece.isWordChar c = true) : SExpr.isBreak c = false :=
  SExpr.isBreak_eq_false h (by decide)

/-- A spelling can stand alone, if it does not break a form. -/
theorem Token.Scanned.isAtom {token : Token} (h : token.Scanned)
    (hkind : token.kind ∈ .identifier :: operatorKinds) : SExpr.IsAtom token.text := by
  obtain ⟨kind, lexeme, literal, line⟩ := token
  change kind ∈ _ at hkind
  obtain ⟨text, htext, rfl⟩ := h.shape (by rintro rfl; exact absurd hkind (by decide))
  change SExpr.IsAtom (String.ofList text)
  suffices hplain : text ≠ [] ∧ SExpr.Unbroken text from
    .word (by rw [String.toList_ofList]; exact hplain.1)
      (by rw [String.toList_ofList]; exact hplain.2)
  refine ⟨htext.ne_nil, ?_⟩
  cases htext with
  | operator hop =>
    have hall : ∀ entry ∈ Lexical.operators, entry.2 ∈ TokenKind.identifier :: operatorKinds →
        SExpr.Unbroken entry.1 := by decide
    exact hall _ hop hkind
  | word hc hrest =>
    refine List.forall_mem_cons.mpr ⟨isBreak_word ?_, fun d hd => isBreak_word (hrest d hd)⟩
    exact Bool.or_eq_true_iff.mpr (.inl hc)
  | whole => exact absurd hkind (by decide)
  | fraction => exact absurd hkind (by decide)
  | string => exact absurd hkind (by decide)

/-! ## Names and constants -/

/-- A constant that its text identifies: any of a source but a number that is too large. -/
def IsShown : Json → Prop
  | .null | .bool _ | .string _ => True
  | .number x => Decimal.IsMagnitude x
  | .int _ | .array _ | .object _ => False

/-- A constant as a source gives it, where a number may be too large. -/
def IsRead : Json → Prop
  | .null | .bool _ | .string _ => True
  | .number x => Decimal.Unsigned x.toModel.unpack
  | .int _ | .array _ | .object _ => False

theorem Token.Scanned.isRead {token : Token} (h : token.Scanned) : IsRead token.literal := by
  obtain ⟨kind, lexeme, literal, line⟩ := token
  obtain ⟨-, hliteral⟩ | ⟨text, htext, -⟩ := h.spelling
  · obtain rfl : literal = _ := hliteral
    trivial
  · change TokenText kind text literal at htext
    cases htext with
    | operator | word | string => trivial
    | whole | fraction => exact Decimal.unsigned_nearest _ _

theorem IsRead.isShown {value : Json} (h : IsRead value)
    (hfinite : ∀ x, value = .number x → x.isInf = false) : IsShown value := by
  cases value with
  | number x => exact Decimal.isMagnitude_of_unsigned h (hfinite x rfl)
  | null | bool | string => trivial
  | _ => cases h

/-- With what a text can begin. -/
inductive Opening where
  | digit | quote | letter
  deriving DecidableEq

def openingOf (c : Char) : Opening :=
  if c.isDigit then .digit else if SExpr.isBreak c then .quote else .letter

/-- With what the text of a constant begins. -/
def Json.opening : Json → Opening
  | .number _ => .digit
  | .string _ => .quote
  | _ => .letter

namespace Node

/-- The texts of the constants other than numbers and strings. -/
def constantWords : List String := ["nil", "true", "false"]

theorem literalText_mem {value : Json} (h : IsShown value) (hv : value.opening = .letter) :
    literalText value ∈ constantWords := by
  cases value with
  | null => decide
  | bool value => cases value <;> decide
  | number x => cases hv
  | string text => cases hv
  | _ => cases h

theorem literalText_opening {value : Json} (h : IsShown value) :
    (literalText value).toList.head?.map openingOf = some value.opening := by
  cases value with
  | null => decide
  | bool value => cases value <;> decide
  | number x =>
    obtain ⟨d, rest, htext, hd⟩ := (Decimal.isNumeral_text h).head
    rw [literalText, htext, List.head?_cons, Option.map_some, openingOf, if_pos hd]
    rfl
  | string text =>
    obtain ⟨quote, more, hquote, htext⟩ := Text.quoted_head text
    change ((Text.quoted text).toList.head?.map openingOf) = _
    rw [htext]
    rcases hquote with rfl | rfl <;> rfl
  | _ => cases h

/-- Constants differ in their texts. -/
theorem literalText_inj {value value' : Json} (h : IsShown value) (h' : IsShown value')
    (he : literalText value = literalText value') : value = value' := by
  have hopening := literalText_opening h
  rw [he, literalText_opening h', Option.some.injEq] at hopening
  cases value with
  | number x =>
    cases value' with
    | number y => rw [Decimal.text_inj h h' he]
    | _ => cases hopening
  | string text =>
    cases value' with
    | string text' =>
      have hquoted : Text.quoted text = Text.quoted text' := he
      rw [Text.quoted_inj hquoted]
    | _ => cases hopening
  | null | bool =>
    cases value' with
    | number | string => cases hopening
    | null | bool => grind [literalText]
    | _ => cases h'
  | _ => cases h

theorem isAtom_literalText {value : Json} (h : IsShown value) :
    SExpr.IsAtom (literalText value) := by
  have hword : ∀ word ∈ constantWords,
      word.toList ≠ [] ∧ SExpr.Unbroken word.toList := by decide +kernel
  have hnumeral : ∀ {c : Char}, Decimal.IsNumeralChar c → SExpr.isBreak c = false := fun hc =>
    @SExpr.isBreak_eq_false _ (fun c => decide (Decimal.IsNumeralChar c)) (decide_eq_true hc)
      (by decide)
  cases value with
  | number x =>
    have ht := Decimal.isNumeral_text h
    obtain ⟨d, rest, htext, -⟩ := ht.head
    exact .word (by rw [literalText, htext]; simp) fun c hc => hnumeral (ht.chars c hc)
  | string text => exact .quoted text
  | null | bool =>
    have hmem := hword _ (literalText_mem h rfl)
    exact .word hmem.1 hmem.2
  | _ => cases h

theorem name_opening {name : Token} (h : name.Scanned) (hkind : name.kind = .identifier) :
    name.text.toList.head?.map openingOf = some .letter := by
  obtain ⟨kind, lexeme, literal, line⟩ := name
  obtain rfl : kind = _ := hkind
  obtain ⟨text, htext, rfl⟩ := h.shape nofun
  change (String.ofList text).toList.head?.map openingOf = _
  rw [String.toList_ofList]
  generalize hk : TokenKind.identifier = kind at htext
  cases htext with
  | operator hop =>
    have hall : ∀ entry ∈ Lexical.operators, entry.2 ≠ .identifier := by decide
    exact absurd hk.symm (hall _ hop)
  | @word c rest hc =>
    have hword : Piece.isWordChar c = true := Bool.or_eq_true_iff.mpr (.inl hc)
    have hdigit : c.isDigit = false := by
      by_contra hd
      rw [Bool.not_eq_false] at hd
      have hletter : Piece.isLetterChar c = false := Lexical.digit_not_letter hd
      rw [hletter] at hc
      cases hc
    simp [openingOf, hdigit, isBreak_word hword]
  | whole | fraction | string => cases hk

/-- No name is the text of a constant. -/
theorem name_ne_literalText {name : Token} (h : name.Scanned) (hkind : name.kind = .identifier)
    {value : Json} (hv : IsShown value) : literalText value ≠ name.text := by
  intro he
  have hopening := literalText_opening hv
  rw [he, name_opening h hkind, Option.some.injEq] at hopening
  have hmem := literalText_mem hv hopening.symm
  have hspelled := congrArg Token.kind (h.spelled_text (by rw [hkind]; decide))
  have hall : ∀ word ∈ constantWords,
      (spellings.lookup word).getD .identifier ≠ .identifier := by decide +kernel
  exact hall _ (he ▸ hmem) (hspelled.trans hkind)

end Node

end GameScript
