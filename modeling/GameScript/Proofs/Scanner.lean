import GameScript.Token.Scanner
import Mathlib.Data.List.Forall2

/-! # Pieces of a source

The pieces of a source are its text without gaps. A line end after pieces that are none but tokens,
blanks and comments ends the last of them, so the source after it is cut as it would be by itself,
and only its lines are others. -/

namespace GameScript

theorem takeWhile_break {α : Type} {p : α → Bool} {x : α} (h : p x = false) (xs more : List α) :
    (xs ++ x :: more).takeWhile p = xs.takeWhile p := by
  induction xs with
  | nil => simp [h]
  | cons y ys ih =>
    by_cases hy : p y
    · simp [hy, ih]
    · simp [hy]

theorem dropWhile_break {α : Type} {p : α → Bool} {x : α} (h : p x = false) (xs more : List α) :
    (xs ++ x :: more).dropWhile p = xs.dropWhile p ++ x :: more := by
  induction xs with
  | nil => simp [h]
  | cons y ys ih =>
    by_cases hy : p y
    · simp [hy, ih]
    · simp [hy]

/-- A stretch that ends before the end of a list is not changed by what comes after the list. -/
theorem takeWhile_append_of_rest {α : Type} {p : α → Bool} {xs : List α} (h : xs.dropWhile p ≠ [])
    (more : List α) : (xs ++ more).takeWhile p = xs.takeWhile p := by
  have hlen := congrArg List.length (List.takeWhile_append_dropWhile (p := p) (l := xs))
  have hpos := List.length_pos_iff.mpr h
  rw [List.length_append] at hlen
  rw [List.takeWhile_append, if_neg (by omega)]

theorem dropWhile_append_of_rest {α : Type} {p : α → Bool} {xs : List α} (h : xs.dropWhile p ≠ [])
    (more : List α) : (xs ++ more).dropWhile p = xs.dropWhile p ++ more := by
  rw [List.dropWhile_append, if_neg (by simpa using h)]

namespace Piece

/-! ## The text of pieces -/

theorem untilCommentEnd_eq {cs body after : List Char} (h : untilCommentEnd cs = some (body, after)) :
    body ++ '*' :: '/' :: after = cs := by
  fun_induction untilCommentEnd cs generalizing body with
  | case1 => cases h
  | case2 rest =>
    cases h
    rfl
  | case3 c rest _ ih =>
    obtain ⟨⟨body', after'⟩, hr, hb⟩ := Option.map_eq_some_iff.mp h
    cases hb
    rw [List.cons_append, ih hr]

theorem lineComment_text (opening rest : List Char) :
    (lineComment opening rest).1.text ++ (lineComment opening rest).2 = opening ++ rest := by
  simp [lineComment, text]

theorem slashPiece_text (rest : List Char) :
    (slashPiece rest).1.text ++ (slashPiece rest).2 = '/' :: rest := by
  unfold slashPiece
  split
  · exact lineComment_text _ _
  · unfold blockComment
    split
    · rename_i h
      simpa [text] using untilCommentEnd_eq h
    · simp [text]
  · rfl

theorem stringPiece_text (rest : List Char) :
    (stringPiece rest).1.text ++ (stringPiece rest).2 = '"' :: rest := by
  unfold stringPiece
  dsimp only
  split
  · rename_i quote after h
    have := List.takeWhile_append_dropWhile (p := (· ≠ '"')) (l := rest)
    rw [h] at this
    simpa [text] using this
  · simp [text]

theorem numberPiece_text (c : Char) (rest : List Char) :
    (numberPiece c rest).1.text ++ (numberPiece c rest).2 = c :: rest := by
  have hrest := List.takeWhile_append_dropWhile (p := isDigitChar) (l := rest)
  unfold numberPiece
  dsimp only
  split
  · rename_i d after h
    rw [h] at hrest
    split
    · simpa [text] using hrest
    · simpa [text] using hrest
  · simp [text]

theorem wordPiece_text (c : Char) (rest : List Char) :
    (wordPiece c rest).1.text ++ (wordPiece c rest).2 = c :: rest := by
  simp [wordPiece, text]

theorem equalsPiece_text (c : Char) (kinds : TokenKind × TokenKind) (rest : List Char) :
    (equalsPiece c kinds rest).1.text ++ (equalsPiece c kinds rest).2 = c :: rest := by
  unfold equalsPiece
  split <;> rfl

/-- The first piece of a source is a beginning of it. -/
theorem first_text (c : Char) (rest : List Char) :
    (first c rest).1.text ++ (first c rest).2 = c :: rest := by
  unfold first
  split
  · rfl
  · exact equalsPiece_text _ _ _
  · split
    · rename_i h
      rw [h]
      exact slashPiece_text rest
    · split
      · rename_i h
        rw [h]
        exact lineComment_text _ _
      · split
        · rfl
        · split
          · rename_i h
            rw [h]
            exact stringPiece_text rest
          · split
            · exact numberPiece_text c rest
            · split
              · exact wordPiece_text c rest
              · rfl

theorem first_text_ne (c : Char) (rest : List Char) : (first c rest).1.text ≠ [] := by
  unfold first slashPiece lineComment blockComment stringPiece numberPiece wordPiece equalsPiece
  dsimp only
  repeat' split
  all_goals simp [text]

theorem first_length (c : Char) (rest : List Char) : (first c rest).2.length ≤ rest.length := by
  have htext := congrArg List.length (first_text c rest)
  have hne := List.length_pos_iff.mpr (first_text_ne c rest)
  simp only [List.length_append, List.length_cons] at htext
  omega

/-! ## All pieces -/

theorem split_fuel {fuel : Nat} {cs : List Char} (h : cs.length ≤ fuel) :
    split fuel cs = ofSource cs := by
  induction fuel using Nat.strongRecOn generalizing cs with
  | ind fuel ih =>
    cases cs with
    | nil => cases fuel <;> rfl
    | cons c rest =>
      obtain ⟨fuel, rfl⟩ : ∃ n, fuel = n + 1 := ⟨fuel - 1, by simp at h; omega⟩
      simp only [List.length_cons] at h
      have hshort := first_length c rest
      rw [split, ofSource, List.length_cons, split, ih fuel (by omega) (by omega)]
      by_cases he : rest.length = fuel
      · rw [he, ih fuel (by omega) (by omega)]
      · rw [ih rest.length (by omega) hshort]

theorem ofSource_cons (c : Char) (rest : List Char) :
    ofSource (c :: rest) = (first c rest).1 :: ofSource (first c rest).2 := by
  rw [ofSource, List.length_cons, split, split_fuel (first_length c rest)]

/-- Pieces are taken off the front of a source. -/
theorem source_induction {P : List Char → Prop} (nil : P [])
    (cons : ∀ c rest, P (first c rest).2 → P (c :: rest)) (cs : List Char) : P cs := by
  generalize hn : cs.length = n
  induction n using Nat.strongRecOn generalizing cs with
  | ind n ih =>
    cases cs with
    | nil => exact nil
    | cons c rest =>
      have hshort := first_length c rest
      simp only [List.length_cons] at hn
      exact cons c rest (ih _ (by omega) _ rfl)

theorem ofSource_text (cs : List Char) : (ofSource cs).flatMap text = cs := by
  induction cs using source_induction with
  | nil => rfl
  | cons c rest ih => rw [ofSource_cons, List.flatMap_cons, ih, first_text]

/-! ## A character after pieces -/

def isProblem : Piece → Bool
  | .problem _ _ => true
  | _ => false

/-- A comment up to the end of its line. -/
def isLineComment : Piece → Bool
  | .comment ('#' :: _) | .comment ('/' :: '/' :: _) => true
  | _ => false

/-- A string or a comment that lacks its end. -/
def isUnended : Piece → Bool
  | .problem .unterminatedString _ | .problem .unterminatedComment _ => true
  | _ => false

theorem isUnended_eq_false {piece : Piece} (h : piece.isProblem = false) :
    piece.isUnended = false := by
  cases piece with
  | problem => cases h
  | _ => rfl

/-- A character that goes on no word, number or symbol before it. -/
structure Separates (c : Char) : Prop where
  word : isWordChar c = false
  dot : c ≠ '.'
  equals : c ≠ '='
  slash : c ≠ '/'
  star : c ≠ '*'

theorem Separates.digit {c : Char} (h : Separates c) : isDigitChar c = false :=
  (Bool.or_eq_false_iff.mp h.word).2

theorem separates_newline : Separates '\n' := ⟨by decide, by decide, by decide, by decide, by decide⟩

theorem separates_semicolon : Separates ';' := ⟨by decide, by decide, by decide, by decide, by decide⟩

theorem untilCommentEnd_append {cs body after : List Char} (more : List Char)
    (h : untilCommentEnd cs = some (body, after)) :
    untilCommentEnd (cs ++ more) = some (body, after ++ more) := by
  fun_induction untilCommentEnd cs generalizing body with
  | case1 => cases h
  | case2 rest =>
    cases h
    rfl
  | case3 c rest hno ih =>
    obtain ⟨⟨body', after'⟩, hr, hb⟩ := Option.map_eq_some_iff.mp h
    cases hb
    -- The rest is not empty, so no end mark begins here with what is added.
    have hno' : ∀ rest', c = '*' → rest ++ more = '/' :: rest' → False := by
      intro rest' hc hrest
      cases rest with
      | nil => cases hr
      | cons d rest =>
        obtain ⟨rfl, -⟩ := List.cons.inj hrest
        exact hno rest hc rfl
    rw [List.cons_append, untilCommentEnd.eq_3 _ _ hno', ih hr]
    rfl

theorem lineComment_break {x : Char} (opening : List Char) {rest : List Char} (more : List Char)
    (h : x = '\n' ∨ (lineComment opening rest).2 ≠ []) :
    lineComment opening (rest ++ x :: more) =
      ((lineComment opening rest).1, (lineComment opening rest).2 ++ x :: more) := by
  rcases h with rfl | h
  · simp [lineComment, takeWhile_break, dropWhile_break]
  · simp only [lineComment] at h ⊢
    rw [takeWhile_append_of_rest h, dropWhile_append_of_rest h]

theorem blockComment_append {rest : List Char} (more : List Char)
    (h : (blockComment rest).1.isUnended = false) :
    blockComment (rest ++ more) = ((blockComment rest).1, (blockComment rest).2 ++ more) := by
  unfold blockComment at h ⊢
  split at h
  · rename_i hc
    simp [untilCommentEnd_append _ hc]
  · cases h

theorem stringPiece_append {rest : List Char} (more : List Char)
    (h : (stringPiece rest).1.isUnended = false) :
    stringPiece (rest ++ more) = ((stringPiece rest).1, (stringPiece rest).2 ++ more) := by
  unfold stringPiece at h ⊢
  dsimp only at h ⊢
  split at h
  · rename_i quote after hd
    have hrest : rest.dropWhile (· ≠ '"') ≠ [] := by
      rw [hd]
      nofun
    rw [takeWhile_append_of_rest hrest, dropWhile_append_of_rest hrest, hd]
    rfl
  · cases h

section Break

variable {x : Char} (hx : Separates x)
include hx

theorem slashPiece_break {rest : List Char} (more : List Char)
    (hended : (slashPiece rest).1.isUnended = false)
    (hline : x = '\n' ∨ (slashPiece rest).1.isLineComment = false ∨ (slashPiece rest).2 ≠ []) :
    slashPiece (rest ++ x :: more) = ((slashPiece rest).1, (slashPiece rest).2 ++ x :: more) := by
  unfold slashPiece at hended hline ⊢
  split at hended
  · exact lineComment_break _ more (hline.imp_right fun h => h.resolve_left nofun)
  · exact blockComment_append _ hended
  · rename_i hopen hblock
    cases rest with
    | nil => simp [hx.slash, hx.star]
    | cons c rest =>
      have hc : c ≠ '/' := fun hc => hopen rest (by rw [hc])
      have hc' : c ≠ '*' := fun hc => hblock rest (by rw [hc])
      simp [hc, hc']

theorem numberPiece_break (c : Char) (rest more : List Char) :
    numberPiece c (rest ++ x :: more) =
      ((numberPiece c rest).1, (numberPiece c rest).2 ++ x :: more) := by
  have hbreak := hx.digit
  unfold numberPiece
  rw [takeWhile_break hbreak, dropWhile_break hbreak]
  generalize rest.dropWhile isDigitChar = tail
  cases tail with
  | nil => simp [hx.dot]
  | cons d after =>
    by_cases hd : d = '.'
    · rw [hd]
      cases after with
      | nil => simp [hbreak]
      | cons e after =>
        by_cases he : isDigitChar e
        · simp [he, takeWhile_break hbreak, dropWhile_break hbreak]
        · simp [he]
    · simp [hd]

theorem wordPiece_break (c : Char) (rest more : List Char) :
    wordPiece c (rest ++ x :: more) =
      ((wordPiece c rest).1, (wordPiece c rest).2 ++ x :: more) := by
  simp [wordPiece, takeWhile_break hx.word, dropWhile_break hx.word]

theorem equalsPiece_break (c : Char) (kinds : TokenKind × TokenKind) (rest more : List Char) :
    equalsPiece c kinds (rest ++ x :: more) =
      ((equalsPiece c kinds rest).1, (equalsPiece c kinds rest).2 ++ x :: more) := by
  cases rest with
  | nil => simp [equalsPiece, hx.equals]
  | cons d rest =>
    by_cases hd : d = '='
    · rw [hd]
      rfl
    · simp [equalsPiece, hd]

/-- A character that goes on no piece changes nothing about one that has its end. A comment up to the
end of its line has it at the end of the source only if the character is a line end. -/
theorem first_break {c : Char} {rest : List Char} (more : List Char)
    (hended : (first c rest).1.isUnended = false)
    (hline : x = '\n' ∨ (first c rest).1.isLineComment = false ∨ (first c rest).2 ≠ []) :
    first c (rest ++ x :: more) = ((first c rest).1, (first c rest).2 ++ x :: more) := by
  unfold first at hended hline ⊢
  split at hended
  · simp [*]
  · simp [*, equalsPiece_break hx]
  · simp only [*] at hline ⊢
    split at hended
    · simp only [*, if_true] at hline ⊢
      exact slashPiece_break hx more hended hline
    · simp only [*, if_false] at hline ⊢
      split at hended
      · simp only [*, if_true] at hline ⊢
        exact lineComment_break _ more (hline.imp_right fun h => h.resolve_left nofun)
      · split at hended
        · simp [*]
        · split at hended
          · have hquote : isBlankChar '"' = false := by decide
            simp [*, stringPiece_append _ hended]
          · split at hended
            · simp [*, numberPiece_break hx]
            · split at hended
              · simp [*, wordPiece_break hx]
              · simp [*]

end Break

theorem first_newline (more : List Char) : first '\n' more = (.blank ['\n'], more) := rfl

/-- Where a source without problems is followed by a line end, it is cut as by itself, and so is what
comes after. -/
theorem ofSource_break (cs more : List Char) (h : ∀ piece ∈ ofSource cs, piece.isProblem = false) :
    ofSource (cs ++ '\n' :: more) = ofSource cs ++ .blank ['\n'] :: ofSource more := by
  induction cs using source_induction with
  | nil => rw [List.nil_append, ofSource_cons, first_newline]; rfl
  | cons c rest ih =>
    rw [ofSource_cons] at h ⊢
    have hfirst : (first c rest).1.isUnended = false := isUnended_eq_false (h _ (by simp))
    rw [List.cons_append, ofSource_cons, first_break separates_newline more hfirst (.inl rfl),
      ih fun piece hp => h piece (by simp [hp])]
    rfl

/-! ## Kinds -/

theorem lookup_ne {kind : TokenKind} {entries : List (String × TokenKind)}
    (h : ∀ entry ∈ entries, entry.2 ≠ kind) (word : String) : entries.lookup word ≠ some kind := by
  induction entries with
  | nil => nofun
  | cons entry rest ih =>
    obtain ⟨key, value⟩ := entry
    rw [List.lookup_cons]
    split
    · intro he
      exact h (key, value) (by simp) (Option.some.inj he)
    · exact ih fun entry he => h entry (by simp [he])

theorem ofWord_ne_eof (word : String) : TokenKind.ofWord word ≠ .eof := by
  have hwords : ∀ entry ∈ TokenKind.words, entry.2 ≠ .eof := by decide
  have hlookup := lookup_ne hwords word
  unfold TokenKind.ofWord
  cases h : TokenKind.words.lookup word with
  | none => decide
  | some kind => exact fun he => hlookup (by rw [h]; exact congrArg some he)

/-- A piece that does not end the program. -/
def NotEnd : Piece → Prop
  | .token kind _ _ => kind ≠ .eof
  | _ => True

theorem first_notEnd (c : Char) (rest : List Char) : (first c rest).1.NotEnd := by
  have hsingle : ∀ kind, TokenKind.single? c = some kind → kind ≠ .eof := by
    intro kind h
    unfold TokenKind.single? at h
    split at h <;> cases h <;> decide
  have hpair : ∀ kinds, TokenKind.equalsPair? c = some kinds → kinds.1 ≠ .eof ∧ kinds.2 ≠ .eof := by
    intro kinds h
    unfold TokenKind.equalsPair? at h
    split at h <;> cases h <;> decide
  unfold first slashPiece lineComment blockComment stringPiece numberPiece wordPiece equalsPiece
  dsimp only
  repeat' split
  all_goals first
    | trivial
    | exact hsingle _ ‹_›
    | exact (hpair _ ‹_›).1
    | exact (hpair _ ‹_›).2
    | exact ofWord_ne_eof _
    | exact nofun

theorem ofSource_notEnd (cs : List Char) : ∀ piece ∈ ofSource cs, piece.NotEnd := by
  induction cs using source_induction with
  | nil => nofun
  | cons c rest ih =>
    rw [ofSource_cons]
    intro piece h
    rcases h with _ | ⟨_, hp⟩
    · exact first_notEnd c rest
    · exact ih piece hp

end Piece

/-! ## Scans -/

/-- The line so many lines below another one. -/
def Below (k : Int) (line line' : Json) : Prop := ∃ n, line = .int n ∧ line' = .int (n + k)

/-- The same token but for its line, and what holds of the two lines. -/
def Token.Relined (L : Json → Json → Prop) (t t' : Token) : Prop :=
  ∃ line, L t.line line ∧ t' = { t with line }

namespace Scan

theorem ofPieces_append (line : Int) (pieces more : List Piece) :
    ofPieces line (pieces ++ more) =
      ⟨(ofPieces line pieces).tokens ++ (ofPieces (ofPieces line pieces).lastLine more).tokens,
        (ofPieces line pieces).diagnostics ++
          (ofPieces (ofPieces line pieces).lastLine more).diagnostics,
        (ofPieces (ofPieces line pieces).lastLine more).lastLine⟩ := by
  induction pieces generalizing line with
  | nil => rfl
  | cons piece rest ih => simp [ofPieces, ih]

theorem ofPieces_lastLine (line : Int) (pieces : List Piece) :
    (ofPieces line pieces).lastLine = line + (pieces.flatMap Piece.text).count '\n' := by
  induction pieces generalizing line with
  | nil => simp [ofPieces]
  | cons piece rest ih =>
    simp only [ofPieces, ih, List.flatMap_cons, List.count_append, Piece.lineFeeds]
    omega

theorem ofPieces_diagnostics {line : Int} {pieces : List Piece}
    (h : (ofPieces line pieces).diagnostics = []) : ∀ piece ∈ pieces, piece.isProblem = false := by
  induction pieces generalizing line with
  | nil => nofun
  | cons piece rest ih =>
    obtain ⟨hfirst, hrest⟩ := List.append_eq_nil_iff.mp h
    intro piece' h
    rcases h with _ | ⟨_, hp⟩
    · cases piece with
      | problem => simp [Piece.diagnostic?] at hfirst
      | _ => rfl
    · exact ih hrest piece' hp

theorem ofPieces_ne_eof {line : Int} {pieces : List Piece} (h : ∀ piece ∈ pieces, piece.NotEnd) :
    ∀ token ∈ (ofPieces line pieces).tokens, token.kind ≠ .eof := by
  induction pieces generalizing line with
  | nil => nofun
  | cons piece rest ih =>
    intro token ht
    rcases List.mem_append.mp ht with ht | ht
    · have hp := h piece (by simp)
      cases piece with
      | token kind text literal =>
        obtain rfl : token = _ := by simpa [Piece.token?] using ht
        exact hp
      | _ => simp [Piece.token?] at ht
    · exact ih (fun piece hp => h piece (by simp [hp])) token ht

theorem ofSource_ne_eof (source : String) : ∀ token ∈ (ofSource source).tokens, token.kind ≠ .eof :=
  ofPieces_ne_eof (Piece.ofSource_notEnd _)

/-- Pieces that begin some lines further down. -/
theorem ofPieces_lowered (line k : Int) (pieces : List Piece) :
    List.Forall₂ (Token.Relined (Below k)) (ofPieces line pieces).tokens (ofPieces (line + k) pieces).tokens ∧
      (ofPieces (line + k) pieces).lastLine = (ofPieces line pieces).lastLine + k ∧
      ((ofPieces line pieces).diagnostics = [] → (ofPieces (line + k) pieces).diagnostics = []) := by
  induction pieces generalizing line with
  | nil => exact ⟨.nil, rfl, fun _ => rfl⟩
  | cons piece rest ih =>
    have hline : line + k + piece.lineFeeds = line + piece.lineFeeds + k := by omega
    obtain ⟨htokens, hlast, hnone⟩ := ih (line + piece.lineFeeds)
    simp only [ofPieces, hline]
    refine ⟨List.rel_append ?_ htokens, hlast, fun h => ?_⟩
    · cases piece with
      | token kind text literal => exact .cons ⟨_, ⟨line, rfl, rfl⟩, rfl⟩ .nil
      | _ => exact .nil
    · obtain ⟨hfirst, hrest⟩ := List.append_eq_nil_iff.mp h
      rw [hnone hrest, List.append_nil]
      cases piece with
      | problem => simp [Piece.diagnostic?] at hfirst
      | _ => rfl

/-- Where a source without problems is followed by a line end and another one, the tokens of both
stand one after the other, those of the second so many lines further down as the first one has. -/
theorem ofSource_break {source : String} (more : String) (h : (ofSource source).diagnostics = [])
    (hmore : (ofSource more).diagnostics = []) :
    ∃ lowered, (ofSource (source ++ "\n" ++ more)).tokens = (ofSource source).tokens ++ lowered ∧
      List.Forall₂ (Token.Relined (Below (1 + source.toList.count '\n'))) (ofSource more).tokens
        lowered ∧
      Token.Relined (Below (1 + source.toList.count '\n')) (ofSource more).finish
        (ofSource (source ++ "\n" ++ more)).finish ∧
      (ofSource (source ++ "\n" ++ more)).diagnostics = [] := by
  have hproblems := ofPieces_diagnostics h
  have hlast : (ofSource source).lastLine = 1 + source.toList.count '\n' := by
    rw [ofSource, ofPieces_lastLine, Piece.ofSource_text]
  have hpieces : Piece.ofSource (source ++ "\n" ++ more).toList =
      Piece.ofSource source.toList ++ .blank ['\n'] :: Piece.ofSource more.toList := by
    rw [← Piece.ofSource_break _ _ hproblems]
    simp
  obtain ⟨htokens, hend, hnone⟩ :=
    ofPieces_lowered 1 (1 + source.toList.count '\n') (Piece.ofSource more.toList)
  -- The line end itself is one line more.
  have hblank : ofPieces (ofSource source).lastLine (.blank ['\n'] :: Piece.ofSource more.toList) =
      ofPieces (1 + (1 + source.toList.count '\n')) (Piece.ofSource more.toList) := by
    have hone : (1 : Int) + source.toList.count '\n' + (Piece.blank ['\n']).lineFeeds =
        1 + (1 + source.toList.count '\n') := by
      rw [show (Piece.blank ['\n']).lineFeeds = 1 from rfl]
      omega
    rw [hlast, ofPieces, hone]
    rfl
  generalize ofPieces (1 + (1 + source.toList.count '\n')) (Piece.ofSource more.toList) = scan
    at htokens hend hnone hblank
  have hscan : ofSource (source ++ "\n" ++ more) =
      ⟨(ofSource source).tokens ++ scan.tokens, (ofSource source).diagnostics ++ scan.diagnostics,
        scan.lastLine⟩ := by
    rw [← hblank]
    show ofPieces 1 (Piece.ofSource (source ++ "\n" ++ more).toList) = _
    rw [hpieces]
    exact ofPieces_append _ _ _
  refine ⟨_, by rw [hscan], htokens, ?_, ?_⟩
  · refine ⟨_, ⟨(ofSource more).lastLine, rfl, rfl⟩, ?_⟩
    rw [hscan]
    exact congrArg Token.finish hend
  · rw [hscan]
    exact List.append_eq_nil_iff.mpr ⟨h, hnone hmore⟩

end Scan

end GameScript
