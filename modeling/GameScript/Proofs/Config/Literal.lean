import GameScript.Proofs.Config.Lexeme
import GameScript.Proofs.Text.Quoted

/-! # Numbers and texts valued

The text of a number stands for the number, and a text in quotes for the characters that were meant,
however they are spelled. -/

namespace GameScript.Config.Blueprint

/-! ## Numbers -/

theorem digit_ne_point {c : Char} (h : Text.isDigit c) : c ≠ '.' := by
  rintro rfl
  exact absurd h (by decide)

/-- The sign of a number and the digits behind it. -/
theorem Numeral.sign_digits (numeral : Numeral) :
    (match (String.ofList numeral.chars).toList with
      | '-' :: rest => (true, rest)
      | rest => (false, rest)) = (numeral.negative, numeral.digits) := by
  obtain ⟨d, digits, hdigits, hd⟩ := numeral.digits_begin
  have hminus : d ≠ '-' := by
    rintro rfl
    exact absurd hd (by decide)
  rw [String.toList_ofList, numeral.chars_eq, hdigits]
  cases numeral.negative with
  | false =>
    split
    · next heq => exact absurd (List.cons.inj heq).1 hminus
    · rfl
  | true => rfl

theorem Numeral.digits_takeWhile (numeral : Numeral) :
    numeral.digits.takeWhile (· ≠ '.') = numeral.whole := by
  refine takeWhile_stops (fun c hc => ?_) fun c hc => ?_
  · simpa using digit_ne_point (numeral.isDigit_whole c hc)
  · split at hc
    · cases hc
    · cases hc
      rfl

theorem numberValue_chars (numeral : Numeral) :
    numberValue (String.ofList numeral.chars) = .ok numeral.datum := by
  unfold numberValue
  split
  next negative digits hsign =>
  obtain ⟨rfl, rfl⟩ := Prod.mk.inj (hsign.symm.trans numeral.sign_digits)
  simp only [numeral.digits_takeWhile]
  have hdrop : numeral.digits.drop numeral.whole.length =
      if numeral.fraction = [] then [] else '.' :: numeral.fraction := List.drop_left
  rw [hdrop, Numeral.datum]
  by_cases hfraction : numeral.fraction = []
  · simp only [hfraction, if_true, if_neg (Nat.not_lt.mpr (numeral.isShort hfraction))]
    cases numeral.negative <;> simp
  · simp only [hfraction, if_false]

/-! ## Texts -/

theorem codes_skip (text rest : List Char) : codes text.length (text ++ rest) = codes 0 rest := by
  induction text with
  | nil => rfl
  | cons c text ih => exact ih

theorem codes_escape {letter : Char} {rest : List Char} {code : List Nat} {length : Nat}
    (h : escape letter rest = some (code, length)) :
    codes 0 ('\\' :: letter :: rest) = (codes length (letter :: rest)).map (code ++ ·) := by
  rw [codes, if_neg (by decide), if_pos rfl, h]
  show (codes length (letter :: rest)).bind (fun more => some (code ++ more)) = _
  cases codes length (letter :: rest) <;> rfl

theorem escape_letter {letter c : Char} (h : (letter, c) ∈ escapes) (rest : List Char) :
    escape letter rest = some ([c.toNat], 1) := by
  have hall : ∀ entry ∈ escapes, letterEscape? entry.1 = some entry.2.toNat := by decide
  have hletter : letterEscape? letter = some c.toNat := hall _ h
  rw [escape, hletter]

theorem escape_wide {letter c : Char} {digits : List Char}
    (h : (letter, digits.length) ∈ wideEscapes) (hc : Text.hexValue? digits = some c.toNat)
    (rest : List Char) : escape letter (digits ++ rest) = some ([c.toNat], digits.length + 1) := by
  have hall : ∀ entry ∈ wideEscapes, letterEscape? entry.1 = none ∧ octalDigit? entry.1 = none ∧
      hexWidth? entry.1 = some entry.2 := by decide
  obtain ⟨hletter, hoctal, hwidth⟩ := hall _ h
  have hbound : c.toNat ≤ 0x10FFFF := by
    have := Text.char_range c
    omega
  simp only [escape, hletter, hoctal, hwidth, List.take_left, hc]
  simp [hbound]

theorem codes_glyph (glyph : Glyph) (rest : List Char) :
    codes 0 (glyph.spelling ++ rest) = (codes 0 rest).map (glyph.char.toNat :: ·) := by
  cases glyph with
  | plain c isPlain =>
    simp only [List.mem_cons, not_or] at isPlain
    obtain ⟨-, hslash, -, hreturn, -⟩ := isPlain
    simp [Glyph.spelling, Glyph.char, codes, hslash, hreturn]
  | escaped c letter isEscape =>
    exact (codes_escape (escape_letter isEscape rest)).trans
      (congrArg _ (codes_skip [letter] rest))
  | coded c letter digits isWide isCode =>
    exact (codes_escape (escape_wide isWide isCode rest)).trans
      (congrArg _ (codes_skip (letter :: digits) rest))

theorem codes_glyphs (glyphs : List Glyph) :
    codes 0 (glyphs.flatMap Glyph.spelling) = some ((glyphs.map Glyph.char).map Char.toNat) := by
  induction glyphs with
  | nil => rfl
  | cons glyph glyphs ih =>
    rw [List.flatMap_cons, codes_glyph, ih]
    rfl

/-- The character with the code zero is not spelled as itself. -/
theorem spelling_ne_zero (glyph : Glyph) : Char.ofNat 0 ∉ glyph.spelling := by
  cases glyph with
  | plain c isPlain =>
    intro hmem
    exact isPlain (by simp [← List.mem_singleton.mp hmem])
  | escaped c letter isEscape =>
    have hall : ∀ entry ∈ escapes, Char.ofNat 0 ∉ ['\\', entry.1] := by decide
    exact hall _ isEscape
  | coded c letter digits isWide isCode =>
    have hall : ∀ entry ∈ wideEscapes, Char.ofNat 0 ∉ ['\\', entry.1] := by decide
    intro hmem
    rcases List.mem_append.mp (show Char.ofNat 0 ∈ ['\\', letter] ++ digits from hmem) with h | h
    · exact hall _ isWide h
    · exact absurd (hexValue_digits isCode _ h) (by decide)

theorem quotedValue_chars (glyphs : List Glyph) :
    quotedValue (String.ofList (Token.quoted glyphs).chars) = .ok (textOf glyphs) := by
  have hinner : ((String.ofList (Token.quoted glyphs).chars).toList.drop 1).dropLast =
      glyphs.flatMap Glyph.spelling := by
    simp [Token.chars]
  have hzero : (glyphs.flatMap Glyph.spelling).contains (Char.ofNat 0) = false := by
    rw [← Bool.not_eq_true, List.contains_iff_mem, List.mem_flatMap]
    rintro ⟨glyph, -, hmem⟩
    exact spelling_ne_zero glyph hmem
  simp only [quotedValue, hinner, hzero, codes_glyphs, Text.ofCodes_toNat]
  rfl

end GameScript.Config.Blueprint
