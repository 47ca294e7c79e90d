import GameScript.Proofs.Config.Blueprint
import Mathlib.Data.List.Basic

/-! # Tokens read back

Where a blank or a comment follows it, a token is read as what it is at every place where it may
stand. -/

namespace GameScript.Config.Blueprint

/-- What a token is read as. -/
def Token.terminal : Token → Terminal
  | .word keyword => .word keyword
  | .mark m => .mark m
  | .name _ => .name
  | .number _ none => .number
  | .number _ (some .seconds) => .duration
  | .number _ (some .percent) => .percentage
  | .quoted _ => .quoted

/-! ## Where a token stops -/

/-- The characters with which blanks and comments begin. -/
def breaks : List Char := [' ', '\t', '\x0c', '\r', '\n', '#', '/']

/-- A text that a token in front of it does not go on into. -/
def Stops (text : List Char) : Prop := ∀ c ∈ text.head?,
  Lexeme.isNameChar c = false ∧ Text.isDigit c = false ∧ c ∉ ['.', 's', '%']

theorem breaks_class : ∀ c ∈ breaks,
    Lexeme.isNameChar c = false ∧ Text.isDigit c = false ∧ c ∉ ['.', 's', '%'] := by
  rw [← List.forall_iff_forall_mem]
  decide

theorem stops_of_break {text : List Char} (h : ∀ c ∈ text.head?, c ∈ breaks) : Stops text :=
  fun c hc => breaks_class c (h c hc)

theorem blank_mem_breaks {c : Char} (h : Lexeme.isBlank c) : c ∈ breaks := by
  have hfeed : c.toNat = 12 → c = '\x0c' := fun hc => Char.toNat_inj.mp hc
  simp only [Lexeme.isBlank, Bool.or_eq_true, decide_eq_true_eq] at h
  rcases h with (((h | h) | h) | h) | h
  · simp [breaks, h]
  · simp [breaks, h]
  · simp [breaks, hfeed h]
  · simp [breaks, h]
  · simp [breaks, h]

theorem stops_opening {opening : List Char} (h : opening ∈ openings) (rest : List Char) :
    Stops (opening ++ rest) := by
  refine stops_of_break ?_
  rcases List.mem_pair.mp h with rfl | rfl <;> simp [breaks]

theorem Spacing.stops {text rest : List Char} (h : Spacing text) (hrest : text = [] → Stops rest) :
    Stops (text ++ rest) := by
  cases h with
  | nil => exact hrest rfl
  | blank hc => exact stops_of_break (by simpa using blank_mem_breaks hc)
  | comment hopening =>
    rw [List.append_assoc]
    exact stops_opening hopening _

theorem Following.stops {tokens : List Token} {text : List Char} (h : Following tokens text) :
    Stops text := by
  cases h with
  | ending h =>
    cases h with
    | spacing h => simpa using h.stops fun _ => (by simp [Stops] : Stops [])
    | comment h hopening => exact h.stops fun _ => stops_opening hopening _
  | token hgap hne => exact hgap.stops fun he => absurd he hne

theorem takeWhile_stops {p : Char → Bool} {text rest : List Char} (htext : ∀ c ∈ text, p c)
    (hrest : ∀ c ∈ rest.head?, p c = false) : (text ++ rest).takeWhile p = text := by
  rw [List.takeWhile_append_of_pos htext]
  cases rest with
  | nil => simp
  | cons c rest => simp [hrest c (by simp)]

/-! ## Characters -/

theorem isDigit_range {c : Char} (h : Text.isDigit c) :
    48 ≤ c.toNat ∧ c.toNat ≤ 57 ∨ 0x660 ≤ c.toNat := by
  have hzeros : ∀ first ∈ Text.zeros, first = 48 ∨ 0x660 ≤ first := by decide
  rw [Text.isDigit, Text.digit?, Option.isSome_map] at h
  obtain ⟨first, hfind⟩ := Option.isSome_iff_exists.mp h
  have hrange := List.find?_some hfind
  simp only [Bool.and_eq_true, decide_eq_true_eq] at hrange
  rcases hzeros first (List.mem_of_find?_eq_some hfind) with rfl | hlarge
  · exact .inl hrange
  · exact .inr (by omega)

theorem isNameStart_range {c : Char} (h : Lexeme.isNameStart c) :
    65 ≤ c.toNat ∧ c.toNat ≤ 122 := by
  simp only [Lexeme.isNameStart, Bool.or_eq_true, Bool.and_eq_true, decide_eq_true_eq, Char.le_def,
    UInt32.le_iff_toNat_le] at h
  have ha : 'a'.val.toNat = 97 := rfl
  have hz : 'z'.val.toNat = 122 := rfl
  have hA : 'A'.val.toNat = 65 := rfl
  have hZ : 'Z'.val.toNat = 90 := rfl
  have hc : c.val.toNat = c.toNat := rfl
  rcases h with (h | h) | rfl
  · omega
  · omega
  · decide

theorem nameStart_not_digit {c : Char} (h : Lexeme.isNameStart c) : Text.isDigit c = false := by
  have hstart := isNameStart_range h
  rw [← Bool.not_eq_true]
  intro hdigit
  have := isDigit_range hdigit
  omega

/-! ## What a token is not -/

theorem numeral_eq_nil {c : Char} {rest : List Char} (hc : Text.isDigit c = false)
    (hrest : c = '-' → ∀ d ∈ rest.head?, Text.isDigit d = false) :
    Lexeme.numeral (c :: rest) = [] := by
  have hnone : ∀ {cs : List Char}, (∀ d ∈ cs.head?, Text.isDigit d = false) →
      Lexeme.unsignedNumeral cs = [] := by
    intro cs hcs
    have htake : ([] ++ cs).takeWhile Text.isDigit = [] := takeWhile_stops nofun hcs
    rw [List.nil_append] at htake
    simp [Lexeme.unsignedNumeral, htake]
  unfold Lexeme.numeral
  split
  · next heq =>
    obtain ⟨rfl, rfl⟩ := List.cons.inj heq
    simp [hnone (hrest rfl)]
  · exact hnone (by simpa using hc)

theorem readNumber_eq_none {cs : List Char} (h : Lexeme.numeral cs = []) (expected : Expected) :
    Lexeme.readNumber expected cs = none := by
  simp [Lexeme.readNumber, h]

theorem nameText_eq_nil {c : Char} (h : Lexeme.isNameStart c = false) (rest : List Char) :
    Lexeme.nameText (c :: rest) = [] := by
  simp [Lexeme.nameText, h]

theorem keyword_begins (keyword : Keyword) :
    ∃ c rest, keyword.text.toList = c :: rest ∧ Lexeme.isNameStart c ∧
      ∀ d ∈ c :: rest, Lexeme.isNameChar d := by
  cases keyword <;> exact ⟨_, _, rfl, by decide, List.all_eq_true.mp (by decide)⟩

/-- No word begins with a character that no name begins with. -/
theorem readWord_eq_none {c : Char} (h : Lexeme.isNameStart c = false) (rest : List Char)
    (expected : Expected) :
    (if Terminal.name ∈ expected then Lexeme.readName expected (c :: rest)
      else Lexeme.readKeyword expected (c :: rest)) = none := by
  have hname : Lexeme.readName expected (c :: rest) = none := by
    simp [Lexeme.readName, nameText_eq_nil h]
  have hkeyword : Lexeme.readKeyword expected (c :: rest) = none := by
    have hfound : (expected.filterMap Lexeme.keyword?).filter
        (·.text.toList.isPrefixOf (c :: rest)) = [] := by
      rw [List.filter_eq_nil_iff]
      intro keyword _ hbegins
      obtain ⟨d, more, htext, hstart, -⟩ := keyword_begins keyword
      rw [htext, List.isPrefixOf_iff_prefix] at hbegins
      obtain ⟨rfl, -⟩ := List.cons_prefix_cons.mp hbegins
      simp [h] at hstart
    simp [Lexeme.readKeyword, hfound]
  rw [hname, hkeyword, ite_self]

theorem quotedText_eq_none {c : Char} (h : c ≠ '"') (rest : List Char) :
    Lexeme.quotedText (c :: rest) = none := by
  unfold Lexeme.quotedText
  split
  · next heq => exact absurd (List.cons.inj heq).1 h
  · rfl

/-! ## Names and words -/

theorem Stops.not_nameChar {rest : List Char} (h : Stops rest) :
    ∀ c ∈ rest.head?, Lexeme.isNameChar c = false := fun c hc => (h c hc).1

theorem nameText_append {c : Char} {text rest : List Char} (hc : Lexeme.isNameStart c)
    (htext : ∀ d ∈ c :: text, Lexeme.isNameChar d) (hrest : Stops rest) :
    Lexeme.nameText (c :: text ++ rest) = c :: text := by
  rw [Lexeme.nameText, List.cons_append, List.head?_cons, Option.map_some, Option.getD_some,
    if_pos hc]
  exact takeWhile_stops htext hrest.not_nameChar

theorem Name.isNameChar (name : Name) : ∀ c ∈ name.chars, Lexeme.isNameChar c := by
  refine List.forall_mem_cons.mpr ⟨?_, List.all_eq_true.mp name.isName⟩
  simp [Lexeme.isNameChar, name.isStart]

variable {expected : Expected} {rest : List Char}

/-- A word is read as a name where a name may stand but the word itself may not. -/
theorem read_asName {c : Char} {text : List Char} (hc : Lexeme.isNameStart c)
    (htext : ∀ d ∈ c :: text, Lexeme.isNameChar d) (h : .name ∈ expected)
    (hwords : ∀ keyword, .word keyword ∈ expected → keyword.text.toList ≠ c :: text)
    (hrest : Stops rest) : Lexeme.read expected (c :: text ++ rest) = some (.name, c :: text) := by
  have hnumber : Lexeme.readNumber expected (c :: text ++ rest) = none := by
    refine readNumber_eq_none (numeral_eq_nil (nameStart_not_digit hc) fun he => ?_) _
    exact absurd (he ▸ hc) (by decide)
  have hname : Lexeme.readName expected (c :: text ++ rest) = some (.name, c :: text) := by
    have hfind : (expected.filterMap Lexeme.keyword?).find? (·.text.toList = c :: text) = none := by
      rw [List.find?_eq_none]
      intro keyword hmem hkeyword
      obtain ⟨terminal, hterminal, he⟩ := List.mem_filterMap.mp hmem
      obtain rfl : terminal = .word keyword := by
        cases terminal <;> cases he
        rfl
      exact hwords keyword hterminal (of_decide_eq_true hkeyword)
    rw [Lexeme.readName, nameText_append hc htext hrest, hfind]
    rfl
  rw [Lexeme.read, hnumber, if_pos h, hname]
  rfl

theorem read_name (name : Name) (h : .name ∈ expected) (hrest : Stops rest) :
    Lexeme.read expected (name.chars ++ rest) = some (.name, name.chars) :=
  read_asName name.isStart name.isNameChar h (fun keyword _ => name.notKeyword keyword) hrest

theorem Keyword.text_injective {a b : Keyword} (h : a.text = b.text) : a = b := by
  have hinverse : ∀ keyword : Keyword, ([.game, .config, .economy, .match, .agents, .agent, .stats,
      .abilities, .ability, .weapons, .weapon, .map, .teams, .team, .sites, .site, .callouts,
      .statusEffects, .effect, .with, .yes, .upperTrue, .lowerTrue, .no, .upperFalse,
      .lowerFalse] : List Keyword).find? (·.text == keyword.text) = some keyword := by
    intro keyword
    cases keyword <;> rfl
  have ha := hinverse a
  rw [h, hinverse b] at ha
  exact (Option.some.inj ha).symm

/-- Of the words that a text begins with, the one that takes it up to where it stops is read. -/
theorem foldl_longer {keyword : Keyword} {found : List Keyword} {best : Option Keyword}
    (hbest : best = some keyword ∨
      keyword ∈ found ∧ ∀ other ∈ best, other.text.length < keyword.text.length)
    (hfound : ∀ other ∈ found, other = keyword ∨ other.text.length < keyword.text.length) :
    found.foldl Lexeme.longer best = some keyword := by
  -- Either the word has been found and stays the best, or it is yet to come and beats the best.
  induction found generalizing best with
  | nil => simpa using hbest
  | cons other found ih =>
    have hrest := fun next hnext => hfound next (List.mem_cons_of_mem _ hnext)
    refine ih ?_ hrest
    rcases hfound other List.mem_cons_self with rfl | hshort
    · refine .inl ?_
      rcases hbest with rfl | ⟨-, hless⟩
      · simp [Lexeme.longer]
      · cases best with
        | none => rfl
        | some b => simp [Lexeme.longer, hless b rfl]
    · rcases hbest with rfl | ⟨hmem, hless⟩
      · exact .inl (by simp [Lexeme.longer, Nat.not_lt_of_lt hshort])
      · refine .inr ⟨?_, ?_⟩
        · rcases List.mem_cons.mp hmem with rfl | hmem
          · exact absurd hshort (Nat.lt_irrefl _)
          · exact hmem
        · intro b hb
          cases best with
          | none => cases hb; exact hshort
          | some a =>
            unfold Lexeme.longer at hb
            dsimp only at hb
            split at hb
            · cases hb; exact hshort
            · cases hb; exact hless _ rfl

theorem prefix_of_stops {p : Char → Bool} {first text : List Char} (hfirst : ∀ c ∈ first, p c)
    (htext : ∀ c ∈ text, p c) (hrest : ∀ c ∈ rest.head?, p c = false)
    (h : first <+: text ++ rest) : first <+: text := by
  obtain ⟨more, hmore⟩ := h
  refine ⟨more.takeWhile p, ?_⟩
  rw [← List.takeWhile_append_of_pos hfirst, hmore, takeWhile_stops htext hrest]

theorem readName_word {keyword : Keyword} (h : .word keyword ∈ expected) (hrest : Stops rest) :
    Lexeme.readName expected (keyword.text.toList ++ rest) =
      some (.word keyword, keyword.text.toList) := by
  obtain ⟨c, text, htext, hstart, hname⟩ := keyword_begins keyword
  have htake : Lexeme.nameText (keyword.text.toList ++ rest) = keyword.text.toList := by
    rw [htext]
    exact nameText_append hstart hname hrest
  have hfind : (expected.filterMap Lexeme.keyword?).find? (·.text.toList = keyword.text.toList) =
      some keyword := by
    cases hfound : (expected.filterMap Lexeme.keyword?).find?
        (·.text.toList = keyword.text.toList) with
    | none =>
      have hnone := List.find?_eq_none.mp hfound keyword (List.mem_filterMap.mpr ⟨_, h, rfl⟩)
      simp at hnone
    | some other =>
      have hother := List.find?_some hfound
      rw [Keyword.text_injective (String.toList_inj.mp (of_decide_eq_true hother))]
  have hne : keyword.text.toList.isEmpty = false := by simp [htext]
  simp [Lexeme.readName, htake, hfind, hne]

theorem readKeyword_word {keyword : Keyword} (h : .word keyword ∈ expected) (hrest : Stops rest) :
    Lexeme.readKeyword expected (keyword.text.toList ++ rest) =
      some (.word keyword, keyword.text.toList) := by
  have hname : ∀ (keyword : Keyword), ∀ c ∈ keyword.text.toList, Lexeme.isNameChar c := by
    intro keyword
    obtain ⟨c, text, htext, -, hname⟩ := keyword_begins keyword
    rwa [htext]
  have hfold : ((expected.filterMap Lexeme.keyword?).filter
      (·.text.toList.isPrefixOf (keyword.text.toList ++ rest))).foldl Lexeme.longer none =
        some keyword := by
    refine foldl_longer (.inr ⟨?_, nofun⟩) fun other hother => ?_
    · refine List.mem_filter.mpr ⟨List.mem_filterMap.mpr ⟨_, h, rfl⟩, ?_⟩
      exact List.isPrefixOf_iff_prefix.mpr (List.prefix_append _ _)
    · -- The text stops behind the word, so any other word it begins with is a part of this one.
      have hbegins : other.text.toList <+: keyword.text.toList :=
        prefix_of_stops (hname other) (hname keyword) hrest.not_nameChar
          (List.isPrefixOf_iff_prefix.mp (List.mem_filter.mp hother).2)
      rcases Nat.lt_or_eq_of_le hbegins.length_le with hshort | hlength
      · exact .inr (by rwa [String.length_toList, String.length_toList] at hshort)
      · exact .inl (Keyword.text_injective (String.toList_inj.mp (hbegins.eq_of_length hlength)))
  rw [Lexeme.readKeyword, hfold]
  rfl

theorem read_word (keyword : Keyword) (h : .word keyword ∈ expected) (hrest : Stops rest) :
    Lexeme.read expected (keyword.text.toList ++ rest) =
      some (.word keyword, keyword.text.toList) := by
  have hnumber : Lexeme.readNumber expected (keyword.text.toList ++ rest) = none := by
    obtain ⟨c, text, htext, hstart, -⟩ := keyword_begins keyword
    rw [htext]
    refine readNumber_eq_none (numeral_eq_nil (nameStart_not_digit hstart) fun hc => ?_) _
    exact absurd (hc ▸ hstart) (by decide)
  rw [Lexeme.read, hnumber, readName_word h hrest, readKeyword_word h hrest, ite_self]
  rfl

/-! ## Marks -/

theorem mark_begins (m : Mark) : ∃ c text, m.text.toList = c :: text ∧
    Lexeme.isNameStart c = false ∧ Text.isDigit c = false ∧ c ≠ '"' ∧
    (c = '-' → text.head? = some '>') := by
  cases m <;> exact ⟨_, _, rfl, by decide, by decide, by decide, by decide⟩

/-- No two marks begin alike. -/
theorem Mark.eq_of_prefix {m other : Mark} (h : other.text.toList <+: m.text.toList ++ rest) :
    other = m := by
  have hheads : other.text.toList.head? = m.text.toList.head? := by
    obtain ⟨c, text, htext, -⟩ := mark_begins m
    obtain ⟨d, text', htext', -⟩ := mark_begins other
    rw [htext, htext'] at h ⊢
    exact congrArg some (List.cons_prefix_cons.mp h).1
  have hinverse : ∀ m : Mark,
      Mark.all.find? (·.text.toList.head? == m.text.toList.head?) = some m := by
    intro m
    cases m <;> rfl
  have hm := hinverse m
  rw [← hheads, hinverse other] at hm
  exact Option.some.inj hm

theorem readMark_append {m : Mark} (h : .mark m ∈ expected) :
    Lexeme.readMark expected (m.text.toList ++ rest) = some (.mark m, m.text.toList) := by
  have hall : m ∈ Mark.all := by cases m <;> decide
  have hfind : Mark.all.find? (fun mark => Terminal.mark mark ∈ expected &&
      mark.text.toList.isPrefixOf (m.text.toList ++ rest)) = some m := by
    cases hfound : Mark.all.find? (fun mark => Terminal.mark mark ∈ expected &&
        mark.text.toList.isPrefixOf (m.text.toList ++ rest)) with
    | none =>
      have hnone := List.find?_eq_none.mp hfound m hall
      simp [h] at hnone
    | some other =>
      have hother := List.find?_some hfound
      rw [Bool.and_eq_true, List.isPrefixOf_iff_prefix] at hother
      rw [Mark.eq_of_prefix hother.2]
  rw [Lexeme.readMark, hfind]
  rfl

theorem read_mark (m : Mark) (h : .mark m ∈ expected) :
    Lexeme.read expected (m.text.toList ++ rest) = some (.mark m, m.text.toList) := by
  obtain ⟨c, text, htext, hstart, hdigit, hquote, hminus⟩ := mark_begins m
  have hnumber : Lexeme.readNumber expected (c :: (text ++ rest)) = none := by
    refine readNumber_eq_none (numeral_eq_nil hdigit fun hc d hd => ?_) _
    rw [List.head?_append, hminus hc] at hd
    cases hd
    decide
  have hquoted : (if Terminal.quoted ∈ expected then
      (Lexeme.quotedText (c :: (text ++ rest))).map (Terminal.quoted, ·) else none) = none := by
    rw [quotedText_eq_none hquote, Option.map_none, ite_self]
  have hmark : Lexeme.readMark expected (c :: (text ++ rest)) = some (.mark m, c :: text) := by
    rw [← List.cons_append, ← htext]
    exact readMark_append h
  rw [htext, List.cons_append, Lexeme.read, hnumber, readWord_eq_none hstart, hquoted, hmark]
  rfl

/-! ## Numbers -/

/-- What does not go on a number. -/
def EndsNumber (text : List Char) : Prop := ∀ c ∈ text.head?, Text.isDigit c = false ∧ c ≠ '.'

section Number

variable {whole : List Char}

theorem unsignedNumeral_whole (hne : whole ≠ []) (hwhole : ∀ c ∈ whole, Text.isDigit c)
    (hrest : EndsNumber rest) : Lexeme.unsignedNumeral (whole ++ rest) = whole := by
  have htake := takeWhile_stops hwhole fun c hc => (hrest c hc).1
  have hempty : whole.isEmpty = false := by simpa using hne
  simp only [Lexeme.unsignedNumeral, htake, hempty, List.drop_left]
  rw [if_neg (by simp)]
  split
  · exact absurd rfl (hrest '.' (by simp)).2
  · rfl

theorem unsignedNumeral_fraction {d : Char} {digits : List Char} (hne : whole ≠ [])
    (hwhole : ∀ c ∈ whole, Text.isDigit c) (hdigits : ∀ c ∈ d :: digits, Text.isDigit c)
    (hrest : EndsNumber rest) :
    Lexeme.unsignedNumeral (whole ++ '.' :: d :: (digits ++ rest)) =
      whole ++ '.' :: d :: digits := by
  have hpoint : ∀ c ∈ ('.' :: d :: (digits ++ rest)).head?, Text.isDigit c = false := by
    rintro c ⟨⟩
    decide
  obtain ⟨hd, hdigits⟩ := List.forall_mem_cons.mp hdigits
  have hempty : whole.isEmpty = false := by simpa using hne
  simp only [Lexeme.unsignedNumeral, takeWhile_stops hwhole hpoint, hempty, List.drop_left, hd,
    takeWhile_stops hdigits fun c hc => (hrest c hc).1]
  rfl

end Number

theorem Numeral.isDigit_whole (numeral : Numeral) : ∀ c ∈ numeral.whole, Text.isDigit c :=
  fun c hc => List.all_eq_true.mp numeral.isNumber c (List.mem_append_left _ hc)

theorem Numeral.isDigit_fraction (numeral : Numeral) : ∀ c ∈ numeral.fraction, Text.isDigit c :=
  fun c hc => List.all_eq_true.mp numeral.isNumber c (List.mem_append_right _ hc)

/-- The digits and the point, without the sign. -/
def Numeral.digits (numeral : Numeral) : List Char :=
  numeral.whole ++ if numeral.fraction = [] then [] else '.' :: numeral.fraction

theorem Numeral.chars_eq (numeral : Numeral) :
    numeral.chars = (if numeral.negative then ['-'] else []) ++ numeral.digits :=
  List.append_assoc _ _ _

theorem Numeral.digits_begin (numeral : Numeral) :
    ∃ d digits, numeral.digits = d :: digits ∧ Text.isDigit d := by
  obtain ⟨d, more, hwhole⟩ := List.exists_cons_of_ne_nil numeral.isWhole
  exact ⟨d, _, by rw [Numeral.digits, hwhole]; rfl, numeral.isDigit_whole d (by simp [hwhole])⟩

theorem Numeral.unsignedNumeral_append (numeral : Numeral) (hrest : EndsNumber rest) :
    Lexeme.unsignedNumeral (numeral.digits ++ rest) = numeral.digits := by
  have hfraction := numeral.isDigit_fraction
  rw [Numeral.digits]
  cases h : numeral.fraction with
  | nil => simpa using unsignedNumeral_whole numeral.isWhole numeral.isDigit_whole hrest
  | cons d digits =>
    rw [h] at hfraction
    simpa using unsignedNumeral_fraction numeral.isWhole numeral.isDigit_whole hfraction hrest

theorem Numeral.numeral_append (numeral : Numeral) (hrest : EndsNumber rest) :
    Lexeme.numeral (numeral.chars ++ rest) = numeral.chars := by
  have hunsigned := numeral.unsignedNumeral_append hrest
  obtain ⟨d, digits, hdigits, hd⟩ := numeral.digits_begin
  rw [numeral.chars_eq]
  cases numeral.negative with
  | false =>
    have hminus : d ≠ '-' := by
      rintro rfl
      exact absurd hd (by decide)
    rw [hdigits] at hunsigned ⊢
    unfold Lexeme.numeral
    split
    · next heq => exact absurd (List.cons.inj heq).1 hminus
    · exact hunsigned
  | true =>
    rw [hdigits] at hunsigned ⊢
    simp only [Lexeme.numeral, if_true, List.nil_append, List.cons_append] at hunsigned ⊢
    rw [hunsigned]
    rfl

/-- A number by itself stays one before a text that does not go on it. -/
theorem unsignedNumeral_append {digits : List Char} (h : Lexeme.unsignedNumeral digits = digits)
    (hrest : EndsNumber rest) : Lexeme.unsignedNumeral (digits ++ rest) = digits := by
  have hall (cs : List Char) : ∀ c ∈ cs.takeWhile Text.isDigit, Text.isDigit c :=
    List.all_eq_true.mp List.all_takeWhile
  have hwhole := hall digits
  by_cases hne : digits.takeWhile Text.isDigit = []
  · have hnil : digits = [] := by simpa [Lexeme.unsignedNumeral, hne] using h.symm
    have htake : ([] ++ rest).takeWhile Text.isDigit = [] :=
      takeWhile_stops nofun fun c hc => (hrest c hc).1
    rw [List.nil_append] at htake
    simp [hnil, Lexeme.unsignedNumeral, htake]
  · simp only [Lexeme.unsignedNumeral, List.isEmpty_iff, hne, if_false] at h
    generalize digits.takeWhile Text.isDigit = whole at h hwhole hne
    split at h
    · next d more hmore =>
      split at h
      · next hd =>
        have hfraction : ∀ c ∈ d :: more.takeWhile Text.isDigit, Text.isDigit c :=
          List.forall_mem_cons.mpr ⟨hd, hall more⟩
        rw [← h]
        simpa using unsignedNumeral_fraction hne hwhole hfraction hrest
      · rw [← h]
        exact unsignedNumeral_whole hne hwhole hrest
    · rw [← h]
      exact unsignedNumeral_whole hne hwhole hrest

theorem numeral_append {digits : List Char} (hne : digits ≠ [])
    (h : Lexeme.numeral digits = digits) (hrest : EndsNumber rest) :
    Lexeme.numeral (digits ++ rest) = digits := by
  unfold Lexeme.numeral at h
  split at h
  · next more =>
    dsimp only at h
    split at h
    · cases h
    · next hmore =>
      have happend := unsignedNumeral_append (List.cons.inj h).2 hrest
      rw [(List.cons.inj h).2] at hmore
      simp [Lexeme.numeral, happend, hmore]
  · next hminus =>
    obtain ⟨c, more, rfl⟩ := List.exists_cons_of_ne_nil hne
    have happend := unsignedNumeral_append h hrest
    unfold Lexeme.numeral
    split
    · next heq => exact absurd (congrArg (· :: more) (List.cons.inj heq).1) (hminus more)
    · exact happend

/-- The number that stands before a text, with what the text says about its unit. -/
theorem readNumber_append {digits : List Char} (hne : digits ≠ []) (rest : List Char)
    (expected : Expected) : Lexeme.numeral (digits ++ rest) = digits →
    Lexeme.readNumber expected (digits ++ rest) =
      match rest with
      | 's' :: rest =>
        if Terminal.duration ∈ expected && !(rest.head?.map Lexeme.isNameChar).getD false then
          some (.duration, digits ++ ['s'])
        else if Terminal.number ∈ expected then some (.number, digits) else none
      | '%' :: _ =>
        if Terminal.percentage ∈ expected then some (.percentage, digits ++ ['%'])
        else if Terminal.number ∈ expected then some (.number, digits) else none
      | _ => if Terminal.number ∈ expected then some (.number, digits) else none := by
  intro hdigits
  simp only [Lexeme.readNumber, hdigits, List.drop_left]
  exact if_neg (by simpa using hne)

/-- What a number is read as, with its unit if it has one. -/
def numberTerminal : Option Measure → Terminal
  | none => .number
  | some .seconds => .duration
  | some .percent => .percentage

theorem read_measured {digits : List Char} (hne : digits ≠ [])
    (hdigits : ∀ rest, EndsNumber rest → Lexeme.numeral (digits ++ rest) = digits)
    (measure : Option Measure) (h : numberTerminal measure ∈ expected) (hrest : Stops rest) :
    Lexeme.read expected (digits ++ (measure.map Measure.mark).toList ++ rest) =
      some (numberTerminal measure, digits ++ (measure.map Measure.mark).toList) := by
  have hread : Lexeme.readNumber expected (digits ++ (measure.map Measure.mark).toList ++ rest) =
      some (numberTerminal measure, digits ++ (measure.map Measure.mark).toList) := by
    rw [List.append_assoc]
    match measure with
    | none =>
      have hends : EndsNumber rest := fun c hc => by
        obtain ⟨-, hdigit, hchars⟩ := hrest c hc
        exact ⟨hdigit, fun he => hchars (by simp [he])⟩
      rw [Option.map_none, Option.toList_none, List.nil_append, List.append_nil,
        readNumber_append hne _ _ (hdigits _ hends)]
      split
      · exact absurd (by simp) (hrest 's' (by simp)).2.2
      · exact absurd (by simp) (hrest '%' (by simp)).2.2
      · exact if_pos h
    | some .seconds =>
      have hends : EndsNumber ('s' :: rest) := by
        rintro c ⟨⟩
        decide
      have hname : (rest.head?.map Lexeme.isNameChar).getD false = false := by
        cases hhead : rest.head? with
        | none => rfl
        | some c => exact hrest.not_nameChar c hhead
      refine (readNumber_append hne _ expected (hdigits _ hends)).trans (if_pos ?_)
      rw [hname, Bool.not_false, Bool.and_true]
      exact decide_eq_true h
    | some .percent =>
      have hends : EndsNumber ('%' :: rest) := by
        rintro c ⟨⟩
        decide
      exact (readNumber_append hne _ expected (hdigits _ hends)).trans (if_pos h)
  rw [Lexeme.read, hread]
  rfl

theorem read_number (numeral : Numeral) (measure : Option Measure)
    (h : (Token.number numeral measure).terminal ∈ expected) (hrest : Stops rest) :
    Lexeme.read expected ((Token.number numeral measure).chars ++ rest) =
      some ((Token.number numeral measure).terminal, (Token.number numeral measure).chars) := by
  have hne : numeral.chars ≠ [] := by simp [Numeral.chars, numeral.isWhole]
  have hterminal : (Token.number numeral measure).terminal = numberTerminal measure := by
    rcases measure with _ | _ | _ <;> rfl
  rw [hterminal] at h ⊢
  exact read_measured hne (fun rest => numeral.numeral_append) measure h hrest

/-! ## Texts in quotes -/

theorem hexValue_digits {digits : List Char} {n : Nat} (h : Text.hexValue? digits = some n) :
    ∀ d ∈ digits, (Text.hexDigit? d).isSome := by
  have hfold : ∀ (acc : Option Nat),
      digits.foldl (fun acc c => do return 16 * (← acc) + (← Text.hexDigit? c)) acc = some n →
        acc.isSome ∧ ∀ d ∈ digits, (Text.hexDigit? d).isSome := by
    clear h
    induction digits with
    | nil =>
      intro acc h
      exact ⟨by simp_all, nofun⟩
    | cons c rest ih =>
      intro acc h
      obtain ⟨hacc, hrest⟩ := ih _ h
      cases acc with
      | none => cases hacc
      | some m =>
        refine ⟨rfl, List.forall_mem_cons.mpr ⟨?_, hrest⟩⟩
        cases hc : Text.hexDigit? c with
        | none => simp [hc] at hacc
        | some d => rfl
  exact (hfold _ h).2

theorem hexDigit_plain {c : Char} (h : (Text.hexDigit? c).isSome) : c ∉ ['"', '\\', '\n'] := by
  intro hmem
  have hnone : ∀ d ∈ ['"', '\\', '\n'], Text.hexDigit? d = none := by
    rw [← List.forall_iff_forall_mem]
    decide
  rw [hnone c hmem] at h
  cases h

/-- Characters without a meaning of their own between quotes. -/
theorem untilQuote_plain {text : List Char} (htext : ∀ c ∈ text, c ∉ ['"', '\\', '\n'])
    (rest : List Char) :
    Lexeme.untilQuote false (text ++ rest) = (Lexeme.untilQuote false rest).map (text ++ ·) := by
  induction text with
  | nil => simp
  | cons c text ih =>
    obtain ⟨hc, htext⟩ := List.forall_mem_cons.mp htext
    simp only [List.mem_cons, not_or] at hc
    obtain ⟨hquote, hslash, hnewline, -⟩ := hc
    rw [List.cons_append, Lexeme.untilQuote, if_neg hnewline]
    simp only [hquote, hslash, decide_false, Bool.false_and, ih htext, Option.map_map]
    rfl

theorem untilQuote_glyph (glyph : Glyph) (rest : List Char) :
    Lexeme.untilQuote false (glyph.spelling ++ rest) =
      (Lexeme.untilQuote false rest).map (glyph.spelling ++ ·) := by
  have hbackslash : ∀ {letter : Char} (more : List Char), letter ≠ '\n' →
      Lexeme.untilQuote false ('\\' :: letter :: more) =
        (Lexeme.untilQuote false more).map fun text => '\\' :: letter :: text := by
    intro letter more hletter
    simp [Lexeme.untilQuote, hletter, Function.comp_def]
  cases glyph with
  | plain c isPlain =>
    refine untilQuote_plain (fun d hd => ?_) rest
    rw [List.mem_singleton.mp hd]
    exact fun hmem => isPlain (List.mem_append_left ['\r', Char.ofNat 0] hmem)
  | escaped c letter isEscape =>
    have hall : ∀ entry ∈ escapes, entry.1 ≠ '\n' := by decide
    exact hbackslash rest (hall _ isEscape)
  | coded c letter digits isWide isCode =>
    have hall : ∀ entry ∈ wideEscapes, entry.1 ≠ '\n' := by decide
    have hdigits := fun d hd => hexDigit_plain (hexValue_digits isCode d hd)
    rw [Glyph.spelling, List.cons_append, List.cons_append, hbackslash _ (hall _ isWide),
      untilQuote_plain hdigits, Option.map_map]
    rfl

theorem untilQuote_glyphs (glyphs : List Glyph) (rest : List Char) :
    Lexeme.untilQuote false (glyphs.flatMap Glyph.spelling ++ '"' :: rest) =
      some (glyphs.flatMap Glyph.spelling ++ ['"']) := by
  induction glyphs with
  | nil => simp [Lexeme.untilQuote]
  | cons glyph glyphs ih =>
    rw [List.flatMap_cons, List.append_assoc, untilQuote_glyph, ih, List.append_assoc]
    rfl

/-- A text in quotes goes on up to the quote that ends it, whatever follows. -/
theorem untilQuote_append {escaped : Bool} {text found : List Char}
    (h : Lexeme.untilQuote escaped text = some found) (rest : List Char) :
    Lexeme.untilQuote escaped (text ++ rest) = some found := by
  induction text generalizing escaped found with
  | nil => cases h
  | cons c text ih =>
    simp only [List.cons_append, Lexeme.untilQuote] at h ⊢
    split at h
    · cases h
    · next hc =>
      rw [if_neg hc]
      split at h
      · next hquote => rw [if_pos hquote, h]
      · next hquote =>
        obtain ⟨more, hmore, rfl⟩ := Option.map_eq_some_iff.mp h
        rw [if_neg hquote, ih hmore]
        rfl

theorem read_text {text : List Char} (htext : Lexeme.quotedText text = some text)
    (h : .quoted ∈ expected) : Lexeme.read expected (text ++ rest) = some (.quoted, text) := by
  obtain ⟨more, rfl⟩ : ∃ more, text = '"' :: more := by
    unfold Lexeme.quotedText at htext
    split at htext
    · exact ⟨_, rfl⟩
    · cases htext
  have hnumber : Lexeme.readNumber expected ('"' :: more ++ rest) = none :=
    readNumber_eq_none (numeral_eq_nil (by decide) fun hc => absurd hc (by decide)) _
  have hquoted : Lexeme.quotedText ('"' :: more ++ rest) = some ('"' :: more) := by
    obtain ⟨found, hfound, hmore⟩ := Option.map_eq_some_iff.mp htext
    rw [List.cons_append, Lexeme.quotedText, untilQuote_append hfound, Option.map_some, hmore]
  rw [Lexeme.read, hnumber, List.cons_append, readWord_eq_none (by decide), ← List.cons_append,
    hquoted, if_pos h]
  rfl

theorem quotedText_glyphs (glyphs : List Glyph) :
    Lexeme.quotedText (Token.quoted glyphs).chars = some (Token.quoted glyphs).chars := by
  rw [Token.chars, Lexeme.quotedText, untilQuote_glyphs]
  rfl

/-- A token is read as what it is wherever it may stand. -/
theorem Token.read_chars (token : Token) (h : token.terminal ∈ expected) (hrest : Stops rest) :
    Lexeme.read expected (token.chars ++ rest) = some (token.terminal, token.chars) := by
  cases token with
  | word keyword => exact read_word keyword h hrest
  | mark m => exact read_mark m h
  | name name => exact read_name name h hrest
  | number numeral measure => exact read_number numeral measure h hrest
  | quoted glyphs => exact read_text (quotedText_glyphs glyphs) h

end GameScript.Config.Blueprint
