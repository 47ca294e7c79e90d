import GameScript.Proofs.Scanner
import Mathlib.Data.List.TakeWhile

/-! # What scanning covers

Tokens, blanks, comments and the stretches that are none of these are described here by their texts
alone. Scanning cuts every source into tokens, each as long as it can be, with gaps of blanks,
comments and faulty stretches between them. It reports each faulty stretch once, and the line of a
token or a stretch is counted by the line feeds in front of it. -/

namespace GameScript

namespace Lexical

open Piece (isBlankChar isDigitChar isLetterChar isWordChar)

/-! ## Texts -/

/-- The symbols that are tokens. -/
def operators : List (List Char × TokenKind) :=
  [(['('], .leftParen), ([')'], .rightParen), (['\x7b'], .leftBrace), (['\x7d'], .rightBrace),
   (['['], .leftBracket), ([']'], .rightBracket), ([','], .comma), (['.'], .dot), (['-'], .minus),
   (['+'], .plus), ([';'], .semicolon), (['/'], .slash), (['*'], .star), (['%'], .percent),
   (['!'], .bang), (['!', '='], .bangEqual), (['='], .equal), (['=', '='], .equalEqual),
   (['>'], .greater), (['>', '='], .greaterEqual), (['<'], .less), (['<', '='], .lessEqual)]

/-- The texts of tokens, with the kind and the literal of each. -/
inductive TokenText : TokenKind → List Char → Json → Prop
  | operator {kind : TokenKind} {text : List Char} (h : (text, kind) ∈ operators) :
      TokenText kind text .null
  | word {c : Char} {rest : List Char} (hc : isLetterChar c) (hrest : ∀ d ∈ rest, isWordChar d) :
      TokenText (.ofWord (String.ofList (c :: rest))) (c :: rest) .null
  | whole {digits : List Char} (hne : digits ≠ []) (hdigits : ∀ d ∈ digits, isDigitChar d) :
      TokenText .number digits (.number (Decimal.ofFraction false digits []))
  | fraction {whole digits : List Char} (hne : whole ≠ []) (hwhole : ∀ d ∈ whole, isDigitChar d)
      (hne' : digits ≠ []) (hdigits : ∀ d ∈ digits, isDigitChar d) :
      TokenText .number (whole ++ '.' :: digits) (.number (Decimal.ofFraction false whole digits))
  | string {body : List Char} (hbody : '"' ∉ body) :
      TokenText .string ('"' :: body ++ ['"']) (.string (String.ofList body))

/-- The texts that mean nothing: a blank, a comment up to the end of its line, a comment up to the
first end mark. `after` is the source behind the text. -/
inductive Trivia : List Char → List Char → Prop
  | blank {c : Char} {after : List Char} (hc : isBlankChar c) : Trivia [c] after
  | lineComment {opening body after : List Char} (hopening : opening ∈ [['/', '/'], ['#']])
      (hbody : '\n' ∉ body) (hafter : after = [] ∨ ∃ more, after = '\n' :: more) :
      Trivia (opening ++ body) after
  | blockComment {body after : List Char} (hbody : ¬ ['*', '/'] <:+: body) :
      Trivia (['/', '*'] ++ body ++ ['*', '/']) after

/-- A character with which a token, a blank or a comment can begin. -/
def Begins (c : Char) : Prop :=
  (∃ kind text literal, TokenText kind (c :: text) literal) ∨ ∃ text after, Trivia (c :: text) after

/-- The texts that are reported: a character with which nothing begins, and a string or a comment
that has no end and so takes the rest of the source. -/
inductive Faulty : ScanProblem → List Char → List Char → Prop
  | unexpected {c : Char} {after : List Char} (hc : ¬ Begins c) : Faulty (.unexpected c) [c] after
  | openString {body : List Char} (hbody : '"' ∉ body) : Faulty .unterminatedString ('"' :: body) []
  | openComment {body : List Char} (hbody : ¬ ['*', '/'] <:+: body) :
      Faulty .unterminatedComment (['/', '*'] ++ body) []

/-- No token that a source begins with is longer than this text. -/
def Longest (text source : List Char) : Prop :=
  ∀ (kind : TokenKind) (longer : List Char) (literal : Json),
    TokenText kind longer literal → longer <+: source → longer.length ≤ text.length

/-- A source that begins with a comment. -/
def OpensComment (source : List Char) : Prop := ['/', '/'] <+: source ∨ ['/', '*'] <+: source

/-! ## Sources -/

/-- The line of what comes after a text, where lines count from one. -/
def lineAfter (before : List Char) : Int := 1 + before.count '\n'

/-- The text between two tokens, and what is reported of it. `before` is the source in front of it
and `after` the source behind it. -/
inductive Gap : List Char → List Char → List Char → List Diagnostic → Prop
  | nil {before after : List Char} : Gap before [] after []
  | trivia {before text rest after : List Char} {diagnostics : List Diagnostic}
      (htext : Trivia text (rest ++ after)) (hrest : Gap (before ++ text) rest after diagnostics) :
      Gap before (text ++ rest) after diagnostics
  | faulty {before text rest after : List Char} {diagnostics : List Diagnostic}
      {reason : ScanProblem} (htext : Faulty reason text (rest ++ after))
      (hrest : Gap (before ++ text) rest after diagnostics) :
      Gap before (text ++ rest) after
        (⟨.int (lineAfter before), .line, reason.message⟩ :: diagnostics)

/-- The tokens and the diagnostics of a source that has the source `before` in front of it. -/
inductive Covered : List Char → List Char → List Token → List Diagnostic → Prop
  | ending {before gap : List Char} {diagnostics : List Diagnostic}
      (hgap : Gap before gap [] diagnostics) : Covered before gap [] diagnostics
  | token {before gap text rest : List Char} {kind : TokenKind} {literal : Json}
      {tokens : List Token} {diagnostics more : List Diagnostic}
      (hgap : Gap before gap (text ++ rest) diagnostics) (htext : TokenText kind text literal)
      (hlongest : Longest text (text ++ rest)) (hcomment : ¬ OpensComment (text ++ rest))
      (hrest : Covered (before ++ gap ++ text) rest tokens more) :
      Covered before (gap ++ (text ++ rest))
        (⟨kind, .string (String.ofList text), literal, .int (lineAfter (before ++ gap))⟩ :: tokens)
        (diagnostics ++ more)

/-- A stretch in front of a source belongs to its first gap. -/
theorem Covered.extend {before text rest : List Char} {tokens : List Token}
    {diagnostics : List Diagnostic} (reported : List Diagnostic)
    (hgap : ∀ {gap after ds}, rest = gap ++ after → Gap (before ++ text) gap after ds →
      Gap before (text ++ gap) after (reported ++ ds))
    (hrest : Covered (before ++ text) rest tokens diagnostics) :
    Covered before (text ++ rest) tokens (reported ++ diagnostics) := by
  cases hrest with
  | ending h => exact .ending (hgap (List.append_nil _).symm h)
  | token h htoken hlongest hcomment hmore =>
    rw [← List.append_assoc text, ← List.append_assoc reported, List.append_assoc before]
    exact .token (hgap rfl h) htoken hlongest hcomment (by rwa [← List.append_assoc before])

theorem Covered.trivia {before text rest : List Char} {tokens : List Token}
    {diagnostics : List Diagnostic} (htext : Trivia text rest)
    (hrest : Covered (before ++ text) rest tokens diagnostics) :
    Covered before (text ++ rest) tokens diagnostics :=
  Covered.extend [] (fun he h => .trivia (he ▸ htext) h) hrest

theorem Covered.faulty {before text rest : List Char} {tokens : List Token}
    {diagnostics : List Diagnostic} {reason : ScanProblem} (htext : Faulty reason text rest)
    (hrest : Covered (before ++ text) rest tokens diagnostics) :
    Covered before (text ++ rest) tokens
      (⟨.int (lineAfter before), .line, reason.message⟩ :: diagnostics) :=
  Covered.extend [_] (fun he h => .faulty (he ▸ htext) h) hrest

theorem Covered.first {before text rest : List Char} {kind : TokenKind} {literal : Json}
    {tokens : List Token} {diagnostics : List Diagnostic} (htext : TokenText kind text literal)
    (hlongest : Longest text (text ++ rest)) (hcomment : ¬ OpensComment (text ++ rest))
    (hrest : Covered (before ++ text) rest tokens diagnostics) :
    Covered before (text ++ rest)
      (⟨kind, .string (String.ofList text), literal, .int (lineAfter before)⟩ :: tokens)
      diagnostics := by
  have hgap : Gap before [] (text ++ rest) [] := .nil
  have hcovered := Covered.token hgap htext hlongest hcomment (by rwa [List.append_nil before])
  rwa [List.append_nil before] at hcovered

/-! ## The longest token at a character -/

theorem operator_begins {text : List Char} {kind : TokenKind} (h : (text, kind) ∈ operators) :
    ∃ c rest, text = c :: rest ∧ isLetterChar c = false ∧ isDigitChar c = false ∧ c ≠ '"' := by
  have hall : ∀ entry ∈ operators, entry.1.head?.any (fun c =>
      decide (isLetterChar c = false ∧ isDigitChar c = false ∧ c ≠ '"')) := by decide
  cases text with
  | nil => cases hall _ h
  | cons c rest => exact ⟨c, rest, rfl, of_decide_eq_true (hall _ h)⟩

theorem digit_not_letter {c : Char} (h : isDigitChar c) : isLetterChar c = false := by
  simp only [isLetterChar, isDigitChar, Char.le_def, UInt32.le_iff_toNat_le, Bool.and_eq_true,
    decide_eq_true_eq, Bool.or_eq_false_iff, Bool.and_eq_false_iff, decide_eq_false_iff_not] at h ⊢
  have h0 : '0'.val.toNat = 48 := rfl
  have h9 : '9'.val.toNat = 57 := rfl
  refine ⟨⟨.inl fun ha => ?_, .inl fun hA => ?_⟩, ?_⟩
  · have : 'a'.val.toNat = 97 := rfl
    omega
  · have : 'A'.val.toNat = 65 := rfl
    omega
  · rintro rfl
    exact absurd h (by decide)

theorem TokenText.ne_nil {kind : TokenKind} {text : List Char} {literal : Json}
    (h : TokenText kind text literal) : text ≠ [] := by
  cases h with
  | operator h =>
    obtain ⟨c, rest, rfl, -⟩ := operator_begins h
    nofun
  | word => nofun
  | whole hne => exact hne
  | fraction => simp
  | string => nofun

section Begins

variable {kind : TokenKind} {c : Char} {text rest : List Char} {literal : Json}

/-- The tokens that begin with a character, by its class. -/
theorem TokenText.begins (h : TokenText kind (c :: text) literal) :
    (isLetterChar c = false ∧ isDigitChar c = false ∧ c ≠ '"' ∧ (c :: text, kind) ∈ operators) ∨
      (isLetterChar c ∧ ∀ d ∈ text, isWordChar d) ∨
      (isDigitChar c ∧ ((∀ d ∈ text, isDigitChar d) ∨
        ∃ whole digits, text = whole ++ '.' :: digits ∧ (∀ d ∈ whole, isDigitChar d) ∧
          digits ≠ [] ∧ ∀ d ∈ digits, isDigitChar d)) ∨
      c = '"' ∧ ∃ body, text = body ++ ['"'] ∧ '"' ∉ body := by
  generalize hs : c :: text = s at h
  cases h with
  | operator h =>
    obtain ⟨d, rest, rfl, hclass⟩ := operator_begins h
    obtain ⟨rfl, rfl⟩ := List.cons.inj hs
    exact .inl ⟨hclass.1, hclass.2.1, hclass.2.2, h⟩
  | word hc hrest =>
    obtain ⟨rfl, rfl⟩ := List.cons.inj hs
    exact .inr (.inl ⟨hc, hrest⟩)
  | whole hne hdigits =>
    subst hs
    exact .inr (.inr (.inl ⟨hdigits c (by simp), .inl fun d hd => hdigits d (by simp [hd])⟩))
  | @fraction whole digits hne hwhole hne' hdigits =>
    obtain ⟨d, more, rfl⟩ := List.exists_cons_of_ne_nil hne
    obtain ⟨rfl, rfl⟩ := List.cons.inj hs
    exact .inr (.inr (.inl ⟨hwhole c (by simp),
      .inr ⟨more, digits, rfl, fun d hd => hwhole d (by simp [hd]), hne', hdigits⟩⟩))
  | string hbody =>
    obtain ⟨rfl, rfl⟩ := List.cons.inj hs
    exact .inr (.inr (.inr ⟨rfl, _, rfl, hbody⟩))

theorem Longest.of_begins
    (h : ∀ {kind more literal}, TokenText kind (c :: more) literal → more <+: rest →
      more.length ≤ text.length) : Longest (c :: text) (c :: rest) := by
  intro kind longer literal htoken hlonger
  obtain ⟨d, more, rfl⟩ := List.exists_cons_of_ne_nil htoken.ne_nil
  obtain ⟨rfl, hmore⟩ := List.cons_prefix_cons.mp hlonger
  simpa using h htoken hmore

theorem length_le_takeWhile {p : Char → Bool} (htext : ∀ c ∈ text, p c) (h : text <+: rest) :
    text.length ≤ (rest.takeWhile p).length := by
  obtain ⟨more, rfl⟩ := h
  rw [List.takeWhile_append_of_pos htext, List.length_append]
  omega

theorem longest_word (hc : isLetterChar c) :
    Longest (c :: rest.takeWhile isWordChar) (c :: rest) := by
  refine Longest.of_begins fun {_ more _} h hmore => ?_
  rcases h.begins with ⟨hletter, -⟩ | ⟨-, hword⟩ | ⟨hdigit, -⟩ | ⟨rfl, -⟩
  · simp [hc] at hletter
  · exact length_le_takeWhile hword hmore
  · simp [digit_not_letter hdigit] at hc
  · cases hc

theorem longest_string (rest : List Char) {body : List Char} (hbody : '"' ∉ body) :
    Longest ('"' :: (body ++ ['"'])) ('"' :: (body ++ '"' :: rest)) := by
  refine Longest.of_begins fun {_ more _} h hmore => ?_
  rcases h.begins with ⟨-, -, hne, -⟩ | ⟨hletter, -⟩ | ⟨hdigit, -⟩ | ⟨-, body', rfl, hbody'⟩
  · exact absurd rfl hne
  · cases hletter
  · cases hdigit
  · -- Both bodies are the source up to its first quote.
    have hplain : ∀ {cs : List Char}, '"' ∉ cs → ∀ d ∈ cs, decide (d ≠ '"') = true :=
      fun h d hd => decide_eq_true fun he => h (he ▸ hd)
    have htake := length_le_takeWhile (hplain hbody') ((List.prefix_append _ _).trans hmore)
    rw [List.takeWhile_append_of_pos (hplain hbody)] at htake
    simpa using htake

/-- A number takes a fraction only where a digit follows the point. -/
theorem longest_number (rest fraction : List Char) (hc : isDigitChar c)
    (hfraction : ∀ d after, rest.dropWhile isDigitChar = '.' :: d :: after → isDigitChar d →
      '.' :: d :: after.takeWhile isDigitChar = fraction) :
    Longest (c :: (rest.takeWhile isDigitChar ++ fraction)) (c :: rest) := by
  refine Longest.of_begins fun {_ more _} h hmore => ?_
  rcases h.begins with ⟨-, hdigit, -⟩ | ⟨hletter, -⟩ |
    ⟨-, hdigits | ⟨whole, digits, rfl, hwhole, hne, hdigits⟩⟩ | ⟨rfl, -⟩
  · simp [hc] at hdigit
  · simp [digit_not_letter hc] at hletter
  · have htake := length_le_takeWhile hdigits hmore
    rw [List.length_append]
    omega
  · obtain ⟨d, digits, rfl⟩ := List.exists_cons_of_ne_nil hne
    obtain ⟨after, rfl⟩ := hmore
    have hpoint : isDigitChar '.' = false := by decide
    have hd : isDigitChar d := hdigits d (by simp)
    have hmost := length_le_takeWhile (fun e he => hdigits e (by simp [he]))
      (List.prefix_append digits after)
    specialize hfraction d (digits ++ after)
      (by simp [List.dropWhile_append_of_pos hwhole, hpoint]) hd
    subst hfraction
    simp [List.takeWhile_append_of_pos hwhole, hpoint]
    omega
  · cases hc

/-- An operator of two characters ends in an equals sign. -/
theorem operator_shape (h : (c :: text, kind) ∈ operators) :
    text = [] ∨ text = ['='] ∧ (TokenKind.equalsPair? c).isSome := by
  have hall : ∀ entry ∈ operators, entry.1.tail = [] ∨
      entry.1.tail = ['='] ∧ entry.1.head?.any fun c => (TokenKind.equalsPair? c).isSome := by
    decide
  exact hall _ h

theorem operator_first (h : (c :: text, kind) ∈ operators) :
    (TokenKind.single? c).isSome ∨ (TokenKind.equalsPair? c).isSome ∨ c = '/' := by
  have hall : ∀ entry ∈ operators, entry.1.head?.any (fun c =>
      decide ((TokenKind.single? c).isSome ∨ (TokenKind.equalsPair? c).isSome ∨ c = '/')) := by
    decide
  exact of_decide_eq_true (hall _ h)

/-- A token that begins as an operator does is one. -/
theorem TokenText.of_operator {text' : List Char} {kind' : TokenKind}
    (hop : (c :: text', kind') ∈ operators) (h : TokenText kind (c :: text) literal) :
    (c :: text, kind) ∈ operators := by
  obtain ⟨_, _, hcons, hletter, hdigit, hquote⟩ := operator_begins hop
  obtain ⟨rfl, rfl⟩ := List.cons.inj hcons
  rcases h.begins with ⟨-, -, -, h⟩ | ⟨hl, -⟩ | ⟨hd, -⟩ | ⟨hq, -⟩
  · exact h
  · simp [hletter] at hl
  · simp [hdigit] at hd
  · exact absurd hq hquote

theorem longest_single (hop : ([c], kind) ∈ operators)
    (hrest : TokenKind.equalsPair? c = none ∨ ∀ more, rest ≠ '=' :: more) :
    Longest [c] (c :: rest) := by
  refine Longest.of_begins fun {_ more _} h hmore => ?_
  rcases operator_shape (h.of_operator hop) with rfl | ⟨rfl, hpair⟩
  · exact Nat.le_refl _
  · obtain ⟨after, rfl⟩ := hmore
    rcases hrest with hnone | hne
    · simp [hnone] at hpair
    · exact absurd rfl (hne after)

theorem longest_pair (hop : ([c, '='], kind) ∈ operators) :
    Longest [c, '='] (c :: '=' :: rest) := by
  refine Longest.of_begins fun {_ more _} h _ => ?_
  rcases operator_shape (h.of_operator hop) with rfl | ⟨rfl, -⟩ <;> simp

theorem not_opensComment (h : c ≠ '/') : ¬ OpensComment (c :: rest) := by
  simp [OpensComment, List.cons_prefix_cons, h.symm]

end Begins

/-! ## Pieces -/

/-- What the first piece of a source is, by its text and the source behind it. -/
def Fits (source after : List Char) : Piece → Prop
  | .token kind text literal =>
    TokenText kind text literal ∧ Longest text source ∧ ¬ OpensComment source
  | .blank text | .comment text => Trivia text after
  | .problem reason text => Faulty reason text after

section Pieces

variable {c : Char} {rest : List Char}

theorem fits_single {kind : TokenKind} (h : TokenKind.single? c = some kind) :
    Fits (c :: rest) rest (.token kind [c] .null) := by
  obtain ⟨hop, hpair, hc⟩ : ([c], kind) ∈ operators ∧ TokenKind.equalsPair? c = none ∧ c ≠ '/' := by
    unfold TokenKind.single? at h
    split at h <;> cases h <;> decide
  exact ⟨.operator hop, longest_single hop (.inl hpair), not_opensComment hc⟩

theorem fits_equals {kinds : TokenKind × TokenKind} (h : TokenKind.equalsPair? c = some kinds) :
    Fits (c :: rest) (Piece.equalsPiece c kinds rest).2 (Piece.equalsPiece c kinds rest).1 := by
  obtain ⟨hpair, hsingle, hc⟩ :
      ([c, '='], kinds.1) ∈ operators ∧ ([c], kinds.2) ∈ operators ∧ c ≠ '/' := by
    unfold TokenKind.equalsPair? at h
    split at h <;> cases h <;> decide
  unfold Piece.equalsPiece
  split
  · exact ⟨.operator hpair, longest_pair hpair, not_opensComment hc⟩
  · rename_i hrest
    exact ⟨.operator hsingle, longest_single hsingle (.inr hrest), not_opensComment hc⟩

theorem fits_lineComment {opening : List Char} (h : opening ∈ [['/', '/'], ['#']])
    (source : List Char) :
    Fits source (Piece.lineComment opening rest).2 (Piece.lineComment opening rest).1 := by
  refine .lineComment h (fun hmem => ?_) ?_
  · simpa using List.mem_takeWhile_imp hmem
  · cases hdrop : rest.dropWhile (· ≠ '\n') with
    | nil => exact .inl hdrop
    | cons d more =>
      have hd := List.head?_dropWhile_not (· ≠ '\n') rest
      rw [hdrop] at hd
      obtain rfl : d = '\n' := by simpa using hd
      exact .inr ⟨more, hdrop⟩

theorem untilCommentEnd_body {cs body after : List Char}
    (h : Piece.untilCommentEnd cs = some (body, after)) : ¬ ['*', '/'] <:+: body := by
  fun_induction Piece.untilCommentEnd cs generalizing body with
  | case1 => cases h
  | case2 rest =>
    cases h
    simp
  | case3 c rest hno ih =>
    obtain ⟨⟨body', after'⟩, hr, hb⟩ := Option.map_eq_some_iff.mp h
    cases hb
    rw [List.infix_cons_iff]
    rintro (⟨more, hmore⟩ | hinfix)
    · obtain ⟨hc, rfl⟩ := List.cons.inj hmore
      exact hno _ hc.symm (Piece.untilCommentEnd_eq hr).symm
    · exact ih hr hinfix

theorem untilCommentEnd_none {cs : List Char} (h : Piece.untilCommentEnd cs = none) :
    ¬ ['*', '/'] <:+: cs := by
  fun_induction Piece.untilCommentEnd cs with
  | case1 => simp
  | case2 rest => cases h
  | case3 c rest hno ih =>
    rw [List.infix_cons_iff]
    rintro (⟨more, hmore⟩ | hinfix)
    · obtain ⟨hc, hrest⟩ := List.cons.inj hmore
      exact hno _ hc.symm hrest.symm
    · exact ih (Option.map_eq_none_iff.mp h) hinfix

theorem fits_slash : Fits ('/' :: rest) (Piece.slashPiece rest).2 (Piece.slashPiece rest).1 := by
  unfold Piece.slashPiece
  split
  · exact fits_lineComment (by simp) _
  · unfold Piece.blockComment
    split
    · rename_i h
      exact .blockComment (untilCommentEnd_body h)
    · rename_i h
      exact .openComment (untilCommentEnd_none h)
  · rename_i hline hblock
    have hop : (['/'], TokenKind.slash) ∈ operators := by decide
    refine ⟨.operator hop, longest_single hop (.inl rfl), ?_⟩
    rintro (⟨more, hmore⟩ | ⟨more, hmore⟩)
    · exact hline more (List.cons.inj hmore).2.symm
    · exact hblock more (List.cons.inj hmore).2.symm

theorem fits_string : Fits ('"' :: rest) (Piece.stringPiece rest).2 (Piece.stringPiece rest).1 := by
  have hbody : '"' ∉ rest.takeWhile (· ≠ '"') := fun hmem => by
    simpa using List.mem_takeWhile_imp hmem
  have hrest := List.takeWhile_append_dropWhile (p := (· ≠ '"')) (l := rest)
  unfold Piece.stringPiece
  dsimp only
  split
  · rename_i quote after hdrop
    have hquote := List.head?_dropWhile_not (· ≠ '"') rest
    rw [hdrop] at hquote hrest
    obtain rfl : quote = '"' := by simpa using hquote
    refine ⟨.string hbody, ?_, not_opensComment (by decide)⟩
    have hlongest := longest_string after hbody
    rwa [hrest] at hlongest
  · rename_i hdrop
    rw [hdrop, List.append_nil] at hrest
    rw [hrest] at hbody
    exact .openString hbody

theorem fits_number (hc : Piece.isDigitChar c) :
    Fits (c :: rest) (Piece.numberPiece c rest).2 (Piece.numberPiece c rest).1 := by
  have hcomment : ¬ OpensComment (c :: rest) := not_opensComment (by rintro rfl; cases hc)
  have hwhole : ∀ d ∈ c :: rest.takeWhile Piece.isDigitChar, Piece.isDigitChar d :=
    List.forall_mem_cons.mpr ⟨hc, fun d hd => List.mem_takeWhile_imp hd⟩
  unfold Piece.numberPiece
  dsimp only
  split
  · rename_i d after hdrop
    split
    · rename_i hd
      have hdigits : ∀ e ∈ d :: after.takeWhile Piece.isDigitChar, Piece.isDigitChar e :=
        List.forall_mem_cons.mpr ⟨hd, fun d hd => List.mem_takeWhile_imp hd⟩
      refine ⟨.fraction (by simp) hwhole (by simp) hdigits, longest_number _ _ hc ?_, hcomment⟩
      intro e more he _
      obtain ⟨-, hcons⟩ := List.cons.inj (hdrop.symm.trans he)
      obtain ⟨rfl, rfl⟩ := List.cons.inj hcons
      rfl
    · rename_i hd
      refine ⟨.whole (by simp) hwhole, ?_, hcomment⟩
      have hlongest := longest_number rest [] hc fun e more he hdigit => by
        obtain ⟨-, hcons⟩ := List.cons.inj (hdrop.symm.trans he)
        obtain ⟨rfl, rfl⟩ := List.cons.inj hcons
        exact absurd hdigit hd
      rwa [List.append_nil] at hlongest
  · rename_i hno
    refine ⟨.whole (by simp) hwhole, ?_, hcomment⟩
    have hlongest := longest_number rest [] hc fun e more he _ =>
      absurd he (hno e more)
    rwa [List.append_nil] at hlongest

theorem fits_word (hc : Piece.isLetterChar c) :
    Fits (c :: rest) (Piece.wordPiece c rest).2 (Piece.wordPiece c rest).1 := by
  refine ⟨.word hc fun d hd => List.mem_takeWhile_imp hd, longest_word hc, not_opensComment ?_⟩
  rintro rfl
  cases hc

theorem fits_unexpected (hsingle : TokenKind.single? c = none)
    (hpair : TokenKind.equalsPair? c = none) (hslash : c ≠ '/') (hhash : c ≠ '#')
    (hblank : ¬ Piece.isBlankChar c) (hquote : c ≠ '"') (hdigit : ¬ Piece.isDigitChar c)
    (hletter : ¬ Piece.isLetterChar c) (source : List Char) :
    Fits source rest (.problem (.unexpected c) [c]) := by
  refine .unexpected ?_
  rintro (⟨kind, text, literal, h⟩ | ⟨text, after, h⟩)
  · rcases h.begins with ⟨-, -, -, hop⟩ | ⟨hl, -⟩ | ⟨hd, -⟩ | ⟨hq, -⟩
    · simpa [hsingle, hpair, hslash] using operator_first hop
    · exact hletter hl
    · exact hdigit hd
    · exact hquote hq
  · generalize hs : c :: text = s at h
    cases h with
    | blank hc =>
      cases hs
      exact hblank hc
    | lineComment hopening =>
      rcases List.mem_pair.mp hopening with rfl | rfl
      · exact hslash (List.cons.inj hs).1
      · exact hhash (List.cons.inj hs).1
    | blockComment => exact hslash (List.cons.inj hs).1

theorem first_fits (c : Char) (rest : List Char) :
    Fits (c :: rest) (Piece.first c rest).2 (Piece.first c rest).1 := by
  unfold Piece.first
  split
  · exact fits_single ‹_›
  · exact fits_equals ‹_›
  · rename_i hsingle hpair
    by_cases hslash : c = '/'
    · rw [if_pos hslash, hslash]
      exact fits_slash
    rw [if_neg hslash]
    by_cases hhash : c = '#'
    · rw [if_pos hhash]
      exact fits_lineComment (by simp) _
    rw [if_neg hhash]
    by_cases hblank : Piece.isBlankChar c
    · rw [if_pos hblank]
      exact .blank hblank
    rw [if_neg hblank]
    by_cases hquote : c = '"'
    · rw [if_pos hquote, hquote]
      exact fits_string
    rw [if_neg hquote]
    by_cases hdigit : Piece.isDigitChar c
    · rw [if_pos hdigit]
      exact fits_number hdigit
    rw [if_neg hdigit]
    by_cases hletter : Piece.isLetterChar c
    · rw [if_pos hletter]
      exact fits_word hletter
    rw [if_neg hletter]
    exact fits_unexpected hsingle hpair hslash hhash hblank hquote hdigit hletter _

end Pieces

theorem lineAfter_append (before text : List Char) :
    lineAfter (before ++ text) = lineAfter before + text.count '\n' := by
  simp only [lineAfter, List.count_append]
  omega

/-- The pieces of a source cover it, whatever stands in front of it. -/
theorem ofPieces_covered (before source : List Char) :
    Covered before source (Scan.ofPieces (lineAfter before) (Piece.ofSource source)).tokens
      (Scan.ofPieces (lineAfter before) (Piece.ofSource source)).diagnostics := by
  -- What is in front grows by a piece in each step, and the lines are counted from it.
  induction source using Piece.source_induction generalizing before with
  | nil => exact .ending .nil
  | cons c rest ih =>
    have hfits := first_fits c rest
    have htext := Piece.first_text c rest
    specialize ih (before ++ (Piece.first c rest).1.text)
    rw [Piece.ofSource_cons, Scan.ofPieces]
    rw [lineAfter_append] at ih
    generalize Piece.first c rest = found at *
    obtain ⟨piece, after⟩ := found
    rw [← htext] at hfits ⊢
    cases piece with
    | token kind text literal =>
      obtain ⟨htoken, hlongest, hcomment⟩ := hfits
      exact .first htoken hlongest hcomment ih
    | blank text => exact .trivia hfits ih
    | comment text => exact .trivia hfits ih
    | problem reason text => exact .faulty hfits ih

end Lexical

/-- Every source is covered by its tokens and the gaps between them, what is reported is what is
faulty in the gaps, and one token more ends the program, on the line where the source ends. -/
theorem Scan.ofSource_covered (source : String) :
    Lexical.Covered [] source.toList (ofSource source).tokens (ofSource source).diagnostics ∧
      (ofSource source).allTokens = (ofSource source).tokens ++
        [⟨.eof, .string "", .null, .int (Lexical.lineAfter source.toList)⟩] ∧
      ∀ token ∈ (ofSource source).tokens, token.kind ≠ .eof := by
  refine ⟨Lexical.ofPieces_covered [] source.toList, ?_, ofSource_ne_eof source⟩
  have hlast : (ofSource source).lastLine = Lexical.lineAfter source.toList := by
    rw [ofSource, ofPieces_lastLine, Piece.ofSource_text, Lexical.lineAfter]
  rw [allTokens, finish, hlast, Token.finish]

end GameScript
