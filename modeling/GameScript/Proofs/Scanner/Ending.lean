import GameScript.Proofs.Scanner
import Mathlib.Data.List.TakeWhile

/-! # A semicolon after a source

A semicolon is a token of its own wherever it is put, unless the source before it ends inside a comment
or a string: there it is part of that, and the source has the same tokens with it and without it. -/

namespace GameScript

namespace Piece

/-- Would a piece at the end of a source go on in what is put after the source? -/
def isOpen (piece : Piece) : Bool := piece.isUnended || piece.isLineComment

/-- Does a source end inside a comment or a string? -/
def endsOpen (source : List Char) : Bool := (ofSource source).getLast?.any isOpen

/-- Does a source end in a comment up to the end of its line? -/
def endsInComment (source : List Char) : Bool := (ofSource source).getLast?.any isLineComment

/-- A comment or a faulty stretch with a semicolon more. -/
def extended : Piece → Piece
  | .comment text => .comment (text ++ [';'])
  | .problem reason text => .problem reason (text ++ [';'])
  | piece => piece

/-! ## The last piece -/

theorem first_unended {c : Char} {rest : List Char} (h : (first c rest).1.isUnended = true) :
    (first c rest).2 = [] := by
  revert h
  unfold first slashPiece lineComment blockComment stringPiece numberPiece wordPiece equalsPiece
  dsimp only
  repeat' split
  all_goals simp [isUnended]

theorem endsOpen_cons (c : Char) (rest : List Char) :
    endsOpen (c :: rest) =
      if (first c rest).2 = [] then (first c rest).1.isOpen else endsOpen (first c rest).2 := by
  unfold endsOpen
  rw [ofSource_cons]
  cases hrest : (first c rest).2 with
  | nil => rfl
  | cons d more =>
    rw [if_neg (List.cons_ne_nil d more), ofSource_cons, List.getLast?_cons_cons]

theorem untilCommentEnd_semicolon {cs : List Char} (h : untilCommentEnd cs = none) :
    untilCommentEnd (cs ++ [';']) = none := by
  fun_induction untilCommentEnd cs with
  | case1 => rfl
  | case2 => cases h
  | case3 c rest hno ih =>
    have hno' : ∀ rest', c = '*' → rest ++ [';'] = '/' :: rest' → False := by
      intro rest' hc hrest
      cases rest with
      | nil => cases hrest
      | cons d rest =>
        obtain ⟨rfl, -⟩ := List.cons.inj hrest
        exact hno rest hc rfl
    rw [List.cons_append, untilCommentEnd.eq_3 _ _ hno', ih (Option.map_eq_none_iff.mp h)]
    rfl

theorem lineComment_semicolon {opening rest : List Char} (h : (lineComment opening rest).2 = []) :
    lineComment opening (rest ++ [';']) = ((lineComment opening rest).1.extended, []) := by
  have hall : ∀ c ∈ rest, decide (c ≠ '\n') = true := List.dropWhile_eq_nil_iff.mp h
  have hall' : ∀ c ∈ rest ++ [';'], decide (c ≠ '\n') = true := by
    intro c hc
    rcases List.mem_append.mp hc with hc | hc
    · exact hall c hc
    · rw [List.mem_singleton.mp hc]
      rfl
  unfold lineComment
  rw [List.takeWhile_eq_self_iff.mpr hall, List.takeWhile_eq_self_iff.mpr hall',
    List.dropWhile_eq_nil_iff.mpr hall', ← List.append_assoc]
  rfl

theorem blockComment_semicolon {rest : List Char} (h : (blockComment rest).1.isOpen = true) :
    blockComment (rest ++ [';']) = ((blockComment rest).1.extended, []) := by
  unfold blockComment at h ⊢
  split at h
  · cases h
  · rename_i hnone
    rw [untilCommentEnd_semicolon hnone]
    rfl

theorem stringPiece_semicolon {rest : List Char} (h : (stringPiece rest).1.isOpen = true) :
    stringPiece (rest ++ [';']) = ((stringPiece rest).1.extended, []) := by
  unfold stringPiece at h ⊢
  dsimp only at h ⊢
  split at h
  · cases h
  · rename_i hnone
    have hsemicolon : (rest ++ [';']).dropWhile (· ≠ '"') = [] := by
      rw [List.dropWhile_append, hnone]
      rfl
    rw [hsemicolon]
    rfl

theorem slashPiece_semicolon {rest : List Char} (h : (slashPiece rest).1.isOpen = true)
    (hrest : (slashPiece rest).2 = []) :
    slashPiece (rest ++ [';']) = ((slashPiece rest).1.extended, []) := by
  unfold slashPiece at h hrest ⊢
  split at h
  · exact lineComment_semicolon hrest
  · exact blockComment_semicolon h
  · cases h

/-- A piece that is open at the end of a source takes a semicolon that comes after it. -/
theorem first_semicolon {c : Char} {rest : List Char} (h : (first c rest).1.isOpen = true)
    (hrest : (first c rest).2 = []) :
    first c (rest ++ [';']) = ((first c rest).1.extended, []) := by
  unfold first at h hrest ⊢
  split at h
  · cases h
  · unfold equalsPiece at h
    split at h <;> cases h
  · simp only [*] at hrest ⊢
    split at h
    · simp only [*, if_true] at hrest ⊢
      exact slashPiece_semicolon h hrest
    · split at h
      · simp only [*, if_true] at hrest ⊢
        exact lineComment_semicolon hrest
      · split at h
        · cases h
        · split at h
          · simp only [*, if_true] at hrest ⊢
            exact stringPiece_semicolon h
          · split at h
            · unfold numberPiece at h
              dsimp only at h
              repeat' split at h
              all_goals cases h
            · split at h <;> cases h

/-! ## All pieces -/

/-- A semicolon after a source that does not end inside a piece is a piece by itself. -/
theorem ofSource_semicolon {cs : List Char} (h : endsOpen cs = false) :
    ofSource (cs ++ [';']) = ofSource cs ++ [.token .semicolon [';'] .null] := by
  induction cs using source_induction with
  | nil => rfl
  | cons c rest ih =>
    rw [endsOpen_cons] at h
    have hbreak : first c (rest ++ [';']) = ((first c rest).1, (first c rest).2 ++ [';']) := by
      by_cases hrest : (first c rest).2 = []
      · rw [if_pos hrest] at h
        obtain ⟨hended, hline⟩ := Bool.or_eq_false_iff.mp h
        exact first_break separates_semicolon [] hended (.inr (.inl hline))
      · have hended := Bool.eq_false_iff.mpr fun hunended => hrest (first_unended hunended)
        exact first_break separates_semicolon [] hended (.inr (.inr hrest))
    have hopen : endsOpen (first c rest).2 = false := by
      split at h
      · next hrest => rw [hrest]; rfl
      · exact h
    rw [List.cons_append, ofSource_cons, ofSource_cons c rest, hbreak, ih hopen]
    rfl

/-- A semicolon after a source that ends inside a piece belongs to it. -/
theorem ofSource_semicolon_of_open {cs : List Char} (h : endsOpen cs = true) :
    ∃ before last, ofSource cs = before ++ [last] ∧
      ofSource (cs ++ [';']) = before ++ [last.extended] := by
  induction cs using source_induction with
  | nil => cases h
  | cons c rest ih =>
    rw [endsOpen_cons] at h
    rw [List.cons_append, ofSource_cons, ofSource_cons c (rest ++ [';'])]
    by_cases hrest : (first c rest).2 = []
    · rw [if_pos hrest] at h
      rw [first_semicolon h hrest, hrest]
      exact ⟨[], (first c rest).1, rfl, rfl⟩
    · rw [if_neg hrest] at h
      have hended := Bool.eq_false_iff.mpr fun hunended => hrest (first_unended hunended)
      obtain ⟨before, last, hpieces, hsemicolon⟩ := ih h
      rw [first_break separates_semicolon [] hended (.inr (.inr hrest)), hpieces, hsemicolon]
      exact ⟨(first c rest).1 :: before, last, rfl, rfl⟩

end Piece

namespace Scan

theorem ofPieces_extended (line : Int) (before : List Piece) (last : Piece) :
    ofPieces line (before ++ [last.extended]) = ofPieces line (before ++ [last]) := by
  have hlast (line : Int) : ofPieces line [last.extended] = ofPieces line [last] := by
    cases last <;> simp [ofPieces, Piece.extended, Piece.token?, Piece.diagnostic?, Piece.lineFeeds,
      Piece.text]
  rw [ofPieces_append, ofPieces_append, hlast]

/-- The token of a semicolon on a line. -/
def semicolon (line : Int) : Token := ⟨.semicolon, .string ";", .null, .int line⟩

/-- A semicolon after a source is one more token at its end, unless the source ends inside a comment or
a string. -/
theorem ofSource_semicolon {source : String} (h : Piece.endsOpen source.toList = false) :
    ofSource (source ++ ";") = { ofSource source with
      tokens := (ofSource source).tokens ++ [semicolon (ofSource source).lastLine] } := by
  have hpieces : Piece.ofSource (source ++ ";").toList =
      Piece.ofSource source.toList ++ [.token .semicolon [';'] .null] := by
    rw [← Piece.ofSource_semicolon h]
    simp
  unfold ofSource
  rw [hpieces, ofPieces_append]
  simp [ofPieces, Piece.token?, Piece.diagnostic?, Piece.lineFeeds, Piece.text, semicolon]

theorem ofSource_semicolon_of_open {source : String} (h : Piece.endsOpen source.toList = true) :
    ofSource (source ++ ";") = ofSource source := by
  obtain ⟨before, last, hpieces, hsemicolon⟩ := Piece.ofSource_semicolon_of_open h
  have htext : (source ++ ";").toList = source.toList ++ [';'] := by simp
  unfold ofSource
  rw [htext, hpieces, hsemicolon, ofPieces_extended]

/-- A source of which nothing is reported has no string and no comment that lacks its end. -/
theorem endsOpen_of_clean {source : String} (h : (ofSource source).diagnostics = []) :
    Piece.endsOpen source.toList = Piece.endsInComment source.toList := by
  have hall := ofPieces_diagnostics h
  unfold Piece.endsOpen Piece.endsInComment
  cases hlast : (Piece.ofSource source.toList).getLast? with
  | none => rfl
  | some last =>
    have hended := Piece.isUnended_eq_false (hall last (List.mem_of_getLast? hlast))
    simp [Piece.isOpen, hended]

end Scan

end GameScript
