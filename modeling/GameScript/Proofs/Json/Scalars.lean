import GameScript.Json.Reader
import GameScript.Json.Writer
import GameScript.Proofs.Decimal.Notation
import GameScript.Proofs.Text.Quoted

/-! # Strings, constants and numbers are read back

Each of these is read from its text whatever text comes after it. Only a number needs something of
that text: it must not go on the number. -/

namespace GameScript.Json

/-! ## Blanks -/

/-- The characters that may stand between the pieces of a text. -/
def blanks : List Char := [' ', '\t', '\n', '\r']

theorem skipBlanks_append {gap : List Char} (h : ∀ c ∈ gap, c ∈ blanks) (rest : List Char) :
    skipBlanks (gap ++ rest) = skipBlanks rest := by
  refine List.dropWhile_append_of_pos fun c hc => ?_
  simpa [blanks, or_assoc] using h c hc

theorem skipBlanks_cons {c : Char} (h : c ∉ blanks) (rest : List Char) :
    skipBlanks (c :: rest) = c :: rest := by
  refine List.dropWhile_cons_of_neg ?_
  simpa [blanks, and_assoc] using h

theorem newline_blanks (level : Nat) : ∀ c ∈ (newline level).toList, c ∈ blanks := by
  intro c hc
  rw [newline, String.toList_ofList] at hc
  rcases List.mem_cons.mp hc with rfl | hc
  · decide
  · rw [List.eq_of_mem_replicate hc]
    decide

/-! ## Strings -/

/-- The codes that the text of a character is read as. -/
def charCodes (ascii : Bool) (c : Char) : List Nat :=
  if ascii && 0x10000 ≤ c.toNat then
    [0xD800 + (c.toNat - 0x10000) / 0x400, 0xDC00 + (c.toNat - 0x10000) % 0x400]
  else [c.toNat]

/-- A character is its own code, or is joined from its two. -/
theorem ofCodes_charCodes (ascii : Bool) (c : Char) (codes : List Nat) :
    Text.ofCodes (charCodes ascii c ++ codes) = c :: Text.ofCodes codes := by
  unfold charCodes
  split
  · rename_i h
    have hbeyond : 0x10000 ≤ c.toNat := by simpa using (Bool.and_eq_true_iff.mp h).2
    have hrange := Text.char_range c
    have hhigh : Text.isHighUnit (0xD800 + (c.toNat - 0x10000) / 0x400) = true := by
      simp only [Text.isHighUnit, Bool.and_eq_true, decide_eq_true_eq]
      omega
    have hlow : Text.isLowUnit (0xDC00 + (c.toNat - 0x10000) % 0x400) = true := by
      simp only [Text.isLowUnit, Bool.and_eq_true, decide_eq_true_eq]
      omega
    have hpair : Text.pairChar (0xD800 + (c.toNat - 0x10000) / 0x400)
        (0xDC00 + (c.toNat - 0x10000) % 0x400) = c := by
      refine (congrArg Char.ofNat ?_).trans c.ofNat_toNat
      omega
    rw [List.cons_append, List.cons_append, List.nil_append, Text.ofCodes, hhigh, hlow, hpair]
    rfl
  · exact Text.ofCodes_cons c codes

theorem ofCodes_flatMap (ascii : Bool) (cs : List Char) :
    Text.ofCodes (cs.flatMap (charCodes ascii)) = cs := by
  induction cs with
  | nil => rfl
  | cons c cs ih => rw [List.flatMap_cons, ofCodes_charCodes, ih]

variable {done : List Nat} {rest : List Char}

theorem stringRest_letter {letter c : Char} (hu : letter ≠ 'u') (h : letterEscape? letter = some c) :
    stringRest done ('\\' :: letter :: rest) = stringRest (c.toNat :: done) rest := by
  rw [stringRest, h]
  exact fun _ _ _ _ _ he _ => hu he

theorem stringRest_unit {unit : Nat} (h : unit < 0x10000) :
    stringRest done (unitEscape unit ++ rest) = stringRest (unit :: done) rest := by
  have hlength : (Text.hex 4 unit).length = 4 := Text.length_hex (by decide) h
  have hvalue := Text.hexValue?_hex 4 unit
  rw [unitEscape]
  match Text.hex 4 unit, hlength, hvalue with
  | [a, b, c, d], _, hvalue =>
    show stringRest done ('\\' :: 'u' :: a :: b :: c :: d :: rest) = _
    rw [stringRest, hvalue]

theorem stringRest_unitEscapes {ascii : Bool} {c : Char} (h : c.toNat < 0x20 ∨ ascii = true) :
    stringRest done (unitEscapes c ++ rest) =
      stringRest ((charCodes ascii c).reverse ++ done) rest := by
  unfold unitEscapes charCodes
  dsimp only
  by_cases hn : c.toNat < 0x10000
  · rw [if_pos hn, stringRest_unit hn, if_neg (by simp; omega)]
    rfl
  · have hrange := Text.char_range c
    obtain rfl : ascii = true := h.resolve_left (by omega)
    rw [if_neg hn, List.append_assoc, stringRest_unit (by omega), stringRest_unit (by omega),
      if_pos (by simp; omega)]
    rfl

theorem stringRest_char (ascii : Bool) (c : Char) :
    stringRest done (stringChar ascii c ++ rest) =
      stringRest ((charCodes ascii c).reverse ++ done) rest := by
  have letter {letter : Char} (hu : letter ≠ 'u') (hl : letterEscape? letter = some c)
      (hn : c.toNat < 0x10000) : stringRest done ('\\' :: letter :: rest) =
        stringRest ((charCodes ascii c).reverse ++ done) rest := by
    rw [stringRest_letter hu hl, charCodes, if_neg (by simp; omega)]
    rfl
  unfold stringChar
  split_ifs with hquote hfeed hreturn htab hform hback hunits
  · obtain rfl | rfl : c = '"' ∨ c = '\\' := by simpa using hquote
    · exact letter (by decide) rfl (by decide)
    · exact letter (by decide) rfl (by decide)
  · subst hfeed
    exact letter (by decide) rfl (by decide)
  · subst hreturn
    exact letter (by decide) rfl (by decide)
  · subst htab
    exact letter (by decide) rfl (by decide)
  · obtain rfl : c = Char.ofNat 12 := by rw [← hform, Char.ofNat_toNat]
    exact letter (by decide) rfl (by decide)
  · obtain rfl : c = Char.ofNat 8 := by rw [← hback, Char.ofNat_toNat]
    exact letter (by decide) rfl (by decide)
  · refine stringRest_unitEscapes ?_
    rw [Bool.or_eq_true, Bool.and_eq_true, decide_eq_true_eq] at hunits
    exact hunits.imp_right fun h => h.1
  · obtain ⟨hq, hb⟩ : c ≠ '"' ∧ c ≠ '\\' := by simpa using hquote
    obtain ⟨hspace, hascii⟩ : ¬ c.toNat < 0x20 ∧ ¬ (ascii = true ∧ 0x7F ≤ c.toNat) := by
      simpa [not_or] using hunits
    have hcodes : charCodes ascii c = [c.toNat] := by
      rw [charCodes, if_neg]
      rw [Bool.and_eq_true, decide_eq_true_eq]
      exact fun h => hascii ⟨h.1, by omega⟩
    rw [hcodes, List.singleton_append, stringRest, if_neg (by simp [hspace, hb])]
    · rfl
    · exact hq
    · exact fun _ _ _ _ _ he _ => hb he
    · exact fun _ _ he _ => hb he

/-- A string is read back, from behind its opening quote. -/
theorem stringRest_text (ascii : Bool) (cs : List Char) :
    stringRest done (cs.flatMap (stringChar ascii) ++ '"' :: rest) =
      .ok (String.ofList (Text.ofCodes (done.reverse ++ cs.flatMap (charCodes ascii))), rest) := by
  induction cs generalizing done with
  | nil =>
    rw [List.flatMap_nil, List.flatMap_nil, List.nil_append, List.append_nil, stringRest]
  | cons c cs ih =>
    rw [List.flatMap_cons, List.flatMap_cons, List.append_assoc, stringRest_char, ih,
      List.reverse_append, List.reverse_reverse, List.append_assoc]

theorem toList_stringText (ascii : Bool) (s : String) (rest : List Char) :
    (stringText ascii s).toList ++ rest =
      '"' :: (s.toList.flatMap (stringChar ascii) ++ '"' :: rest) := by
  simp [stringText]

theorem stringRest_written (ascii : Bool) (s : String) :
    stringRest [] (s.toList.flatMap (stringChar ascii) ++ '"' :: rest) = .ok (s, rest) := by
  rw [stringRest_text, List.reverse_nil, List.nil_append, ofCodes_flatMap, String.ofList_toList]

/-! ## Numbers -/

/-- A text that does not go on a number before it. -/
def EndsNumber (rest : List Char) : Prop :=
  ∀ c ∈ rest.head?, isAsciiDigit c = false ∧ c ∉ ['.', 'e', 'E', '+', '-']

theorem takeWhile_append {p : Char → Bool} (h : ∀ c ∈ rest.head?, p c = false) (cs : List Char) :
    (cs ++ rest).takeWhile p = cs.takeWhile p ∧
      (cs ++ rest).dropWhile p = cs.dropWhile p ++ rest := by
  induction cs with
  | nil =>
    cases rest with
    | nil => exact ⟨rfl, rfl⟩
    | cons c rest => simp [h c (by simp)]
  | cons c cs ih =>
    by_cases hc : p c
    · simpa [List.takeWhile_cons_of_pos hc, List.dropWhile_cons_of_pos hc] using ih
    · simp [hc]

/-- What was read of a text, with more text after it. -/
abbrev followed {α : Type} (rest : List Char) : α × List Char → α × List Char :=
  Prod.map id (· ++ rest)

theorem fractionDigits_append (h : EndsNumber rest) (cs : List Char) :
    fractionDigits (cs ++ rest) = (fractionDigits cs).map (followed rest) := by
  have hdigits := takeWhile_append fun c hc => (h c hc).1
  have none_of {c : Char} (hc : c ≠ '.') (cs : List Char) : fractionDigits (c :: cs) = none := by
    rw [fractionDigits]
    exact fun _ he => hc (List.cons.inj he).1
  cases cs with
  | nil =>
    cases rest with
    | nil => rfl
    | cons c rest =>
      have hc : c ≠ '.' := by
        rintro rfl
        exact (h '.' rfl).2 (by decide)
      exact none_of hc rest
  | cons c cs =>
    by_cases hc : c = '.'
    · subst hc
      rw [List.cons_append, fractionDigits, fractionDigits, (hdigits cs).1, (hdigits cs).2]
      split <;> rfl
    · rw [List.cons_append, none_of hc, none_of hc]
      rfl

/-- The sign of an exponent, and what follows it. -/
def exponentSign (cs : List Char) : Bool × List Char :=
  match cs with
  | '-' :: rest => (true, rest)
  | '+' :: rest => (false, rest)
  | _ => (false, cs)

theorem exponent_cons (c : Char) (cs : List Char) :
    exponent (c :: cs) =
      if c = 'e' || c = 'E' then
        let (negative, rest) := exponentSign cs
        let digits := rest.takeWhile isAsciiDigit
        if digits.isEmpty then none
        else
          let n : Int := Text.digitsValue digits
          some (if negative then -n else n, rest.dropWhile isAsciiDigit)
      else none := rfl

theorem exponentSign_append (h : EndsNumber rest) (cs : List Char) :
    exponentSign (cs ++ rest) = followed rest (exponentSign cs) := by
  have unsigned {c : Char} (hm : c ≠ '-') (hp : c ≠ '+') (cs : List Char) :
      exponentSign (c :: cs) = (false, c :: cs) := by
    rw [exponentSign]
    · exact fun _ he => hm (List.cons.inj he).1
    · exact fun _ he => hp (List.cons.inj he).1
  cases cs with
  | nil =>
    cases rest with
    | nil => rfl
    | cons c rest =>
      have hc := (h c rfl).2
      exact unsigned (by rintro rfl; exact hc (by decide)) (by rintro rfl; exact hc (by decide)) rest
  | cons c cs =>
    by_cases hm : c = '-'
    · subst hm
      rfl
    · by_cases hp : c = '+'
      · subst hp
        rfl
      · rw [List.cons_append, unsigned hm hp, unsigned hm hp]
        rfl

theorem exponent_append (h : EndsNumber rest) (cs : List Char) :
    exponent (cs ++ rest) = (exponent cs).map (followed rest) := by
  have hdigits := takeWhile_append fun c hc => (h c hc).1
  cases cs with
  | nil =>
    cases rest with
    | nil => rfl
    | cons c rest =>
      have hc := (h c rfl).2
      refine if_neg ?_
      simp only [List.mem_cons, not_or] at hc
      simp [hc]
  | cons c cs =>
    rw [List.cons_append, exponent_cons, exponent_cons, exponentSign_append h]
    obtain ⟨negative, cs⟩ := exponentSign cs
    simp only [followed, Prod.map, id, (hdigits cs).1, (hdigits cs).2]
    split
    · split <;> rfl
    · rfl

/-- The digits in front of the point. -/
def wholeDigits (cs : List Char) : List Char :=
  match cs with
  | '0' :: _ => ['0']
  | _ => cs.takeWhile isAsciiDigit

theorem wholeDigits_of_ne {c : Char} (hc : c ≠ '0') (cs : List Char) :
    wholeDigits (c :: cs) = (c :: cs).takeWhile isAsciiDigit := by
  rw [wholeDigits]
  exact fun _ he => hc (List.cons.inj he).1

theorem wholeDigits_append (h : EndsNumber rest) (cs : List Char) :
    wholeDigits (cs ++ rest) = wholeDigits cs := by
  have hdigits := takeWhile_append fun c hc => (h c hc).1
  cases cs with
  | nil =>
    cases rest with
    | nil => rfl
    | cons c rest =>
      have hc := (h c rfl).1
      rw [List.nil_append, wholeDigits_of_ne (by rintro rfl; cases hc)]
      exact (hdigits []).1
  | cons c cs =>
    by_cases hc : c = '0'
    · subst hc
      rfl
    · rw [List.cons_append, wholeDigits_of_ne hc, wholeDigits_of_ne hc]
      exact (hdigits (c :: cs)).1

theorem wholeDigits_length (cs : List Char) : (wholeDigits cs).length ≤ cs.length := by
  unfold wholeDigits
  split
  · simp
  · exact (List.takeWhile_sublist _).length_le

theorem unsignedNumber_eq (negative : Bool) (cs : List Char) : unsignedNumber negative cs =
    let digits := wholeDigits cs
    if digits.isEmpty then .error .malformed
    else
      let rest := cs.drop digits.length
      let fraction := fractionDigits rest
      let afterFraction := (fraction.map (·.2)).getD rest
      let power := exponent afterFraction
      if fraction.isNone && power.isNone then
        if maxDigits < digits.length then .error .tooManyDigits
        else
          let n : Int := Text.digitsValue digits
          .ok (.int (if negative then -n else n), rest)
      else
        let decimals := (fraction.map (·.1)).getD []
        let value := Decimal.ofDigits negative (Text.digitsValue (digits ++ decimals))
          ((power.map (·.1)).getD 0 - decimals.length)
        .ok (.number value, (power.map (·.2)).getD afterFraction) := rfl

/-- A number is read as it is alone, whatever follows it. -/
theorem unsignedNumber_append (h : EndsNumber rest) (negative : Bool) (cs : List Char) :
    unsignedNumber negative (cs ++ rest) = (unsignedNumber negative cs).map (followed rest) := by
  rw [unsignedNumber_eq, unsignedNumber_eq, wholeDigits_append h]
  dsimp only
  rw [List.drop_append_of_le_length (wholeDigits_length cs), fractionDigits_append h]
  split
  · rfl
  · cases fractionDigits (cs.drop (wholeDigits cs).length) with
    | none =>
      simp only [Option.map_none, Option.getD_none, exponent_append h]
      cases exponent (cs.drop (wholeDigits cs).length) with
      | none =>
        simp only [Option.isNone_none, Option.map_none, Bool.and_self, if_true]
        split <;> rfl
      | some power => rfl
    | some fraction =>
      simp only [Option.map_some, Option.getD_some, followed, Prod.map, exponent_append h]
      cases exponent fraction.2 with
      | none => rfl
      | some power => rfl

/-! ## Integers -/

theorem isAsciiDigit_eq (c : Char) : isAsciiDigit c = c.isDigit := by
  rw [Bool.eq_iff_iff]
  simp [isAsciiDigit, Char.isDigit, Char.le_def, UInt32.le_iff_toNat_le]

theorem digit?_of_isDigit {c : Char} (h : c.isDigit) : Text.digit? c = some (c.toNat - '0'.toNat) := by
  have hrange : 48 ≤ c.toNat ∧ c.toNat ≤ 57 := by
    simpa [Char.isDigit, UInt32.le_iff_toNat_le] using h
  simp [Text.digit?, Text.zeros, hrange]

theorem digitsValue_toDigits (n : Nat) : Text.digitsValue (Nat.toDigits 10 n) = n := by
  have hvalue : Text.digitsValue (Nat.toDigits 10 n) = Nat.ofDigitChars 10 (Nat.toDigits 10 n) 0 := by
    refine List.foldl_ext _ _ _ fun value c hc => ?_
    rw [digit?_of_isDigit (Decimal.allDigits_toDigits n c hc)]
    rfl
  rw [hvalue, Nat.ofDigitChars_toDigits (by decide) (by decide)]

/-- A leading zero is all of the number. -/
theorem toDigits_zero_cons {n : Nat} {cs : List Char} (h : Nat.toDigits 10 n = '0' :: cs) : n = 0 := by
  induction n using Nat.strongRecOn generalizing cs with
  | ind n ih =>
    have hsmall : ∀ m < 10, Nat.digitChar m = '0' → m = 0 := by decide
    rw [Nat.toDigits_eq_if (by decide)] at h
    split at h
    · next hn => exact hsmall n hn (List.cons.inj h).1
    · next hn =>
      obtain ⟨d, ds, hds⟩ := List.exists_cons_of_ne_nil (Nat.toDigits_ne_nil (n := n / 10) (b := 10))
      rw [hds, List.cons_append] at h
      rw [(List.cons.inj h).1] at hds
      have := ih (n / 10) (by omega) hds
      omega

theorem wholeDigits_toDigits (n : Nat) : wholeDigits (Nat.toDigits 10 n) = Nat.toDigits 10 n := by
  obtain ⟨d, ds, hds⟩ := List.exists_cons_of_ne_nil (Nat.toDigits_ne_nil (n := n) (b := 10))
  by_cases hd : d = '0'
  · subst hd
    rw [toDigits_zero_cons hds]
    rfl
  · have hall := Decimal.allDigits_toDigits n
    rw [hds] at hall ⊢
    rw [wholeDigits_of_ne hd]
    exact List.takeWhile_eq_self_iff.mpr fun c hc => (isAsciiDigit_eq c).trans (hall c hc)

theorem unsignedNumber_toDigits (negative : Bool) {n : Nat} (h : Decimal.width n ≤ maxDigits) :
    unsignedNumber negative (Nat.toDigits 10 n) =
      .ok (.int (if negative then -(n : Int) else n), []) := by
  rw [unsignedNumber_eq, wholeDigits_toDigits]
  dsimp only
  rw [List.isEmpty_eq_false_iff.mpr Nat.toDigits_ne_nil, List.drop_length, digitsValue_toDigits]
  exact if_neg (Nat.not_lt.mpr h)

/-! ## Constants and numbers -/

/-- A constant or a number at the start of a text. -/
def scalar (cs : List Char) : Except ReadError (Json × List Char) :=
  match constant? cs with
  | some result => pure result
  | none =>
    match cs with
    | '-' :: rest => unsignedNumber true rest
    | rest => unsignedNumber false rest

/-- What neither blanks nor strings nor arrays nor objects begin with. -/
def BeginsScalar (c : Char) : Prop := c ∉ '"' :: '[' :: '\x7b' :: blanks

theorem datum_scalar {c : Char} (h : BeginsScalar c) (fuel room : Nat) (cs : List Char) :
    datum (fuel + 1) room (c :: cs) = scalar (c :: cs) := by
  simp only [BeginsScalar, List.mem_cons, not_or] at h
  obtain ⟨hquote, hopen, hbrace, hblank⟩ := h
  rw [datum, skipBlanks_cons hblank]
  split
  · next heq => exact absurd (List.cons.inj heq).1 hquote
  · next heq => exact absurd (List.cons.inj heq).1 hopen
  · next heq => exact absurd (List.cons.inj heq).1 hbrace
  · rfl

/-- A sign or none, and a digit. -/
inductive BeginsNumber : List Char → Prop where
  | unsigned {d : Char} {cs : List Char} : d.isDigit → BeginsNumber (d :: cs)
  | signed {d : Char} {cs : List Char} : d.isDigit → BeginsNumber ('-' :: d :: cs)

theorem constant?_none {c : Char} (h : c ∉ ['n', 't', 'f', 'N', 'I', '-']) (cs : List Char) :
    constant? (c :: cs) = none := by
  simp only [List.mem_cons, not_or, eq_comm (a := c)] at h
  simp [constant?, constants, h]

theorem scalar_constant {name : String} {value : Json} (h : (name, value) ∈ constants) :
    scalar (name.toList ++ rest) = .ok (value, rest) := by
  simp only [constants, List.mem_cons, List.not_mem_nil, or_false, Prod.mk.injEq] at h
  rcases h with ⟨rfl, rfl⟩ | ⟨rfl, rfl⟩ | ⟨rfl, rfl⟩ | ⟨rfl, rfl⟩ | ⟨rfl, rfl⟩ | ⟨rfl, rfl⟩ <;> rfl

theorem isDigit_notMem {d : Char} (h : d.isDigit) {cs : List Char}
    (hcs : cs.any Char.isDigit = false) : d ∉ cs := fun hmem => by
  rw [List.any_eq_true.mpr ⟨d, hmem, h⟩] at hcs
  cases hcs

theorem scalar_unsigned {d : Char} (h : d.isDigit) (cs : List Char) :
    scalar (d :: cs) = unsignedNumber false (d :: cs) := by
  rw [scalar, constant?_none (isDigit_notMem h rfl)]
  intro _ heq
  rw [(List.cons.inj heq).1] at h
  cases h

theorem scalar_signed {d : Char} (h : d.isDigit) (cs : List Char) :
    scalar ('-' :: d :: cs) = unsignedNumber true (d :: cs) := by
  have hnone : constant? ('-' :: d :: cs) = none := by
    have hd : 'I' ≠ d := by
      rintro rfl
      cases h
    simp [constant?, constants, hd]
  rw [scalar, hnone]

/-- A number is read as it is alone, whatever follows it. -/
theorem scalar_append (hr : EndsNumber rest) {cs : List Char} (h : BeginsNumber cs) :
    scalar (cs ++ rest) = (scalar cs).map (followed rest) := by
  cases h with
  | @unsigned d cs hd =>
    rw [List.cons_append, scalar_unsigned hd, scalar_unsigned hd]
    exact unsignedNumber_append hr false (d :: cs)
  | @signed d cs hd =>
    rw [List.cons_append, List.cons_append, scalar_signed hd, scalar_signed hd]
    exact unsignedNumber_append hr true (d :: cs)

theorem beginsNumber_sign (negative : Prop) [Decidable negative] {cs : List Char}
    (h : ∃ d rest, cs = d :: rest ∧ d.isDigit = true) :
    BeginsNumber ((if negative then "-" else "").toList ++ cs) := by
  obtain ⟨d, rest, rfl, hd⟩ := h
  split
  · exact .signed hd
  · exact .unsigned hd

theorem scalar_sign {d : Char} (h : d.isDigit) (negative : Prop) [Decidable negative]
    (cs : List Char) :
    scalar ((if negative then "-" else "").toList ++ d :: cs) =
      unsignedNumber (decide negative) (d :: cs) := by
  split
  · next hn =>
    rw [decide_eq_true hn]
    exact scalar_signed h cs
  · next hn =>
    rw [decide_eq_false hn]
    exact scalar_unsigned h cs

theorem scalar_integer {n : Int} (h : Decimal.width n.natAbs ≤ maxDigits) (hr : EndsNumber rest) :
    scalar ((Decimal.integerText n).toList ++ rest) = .ok (.int n, rest) := by
  obtain ⟨-, d, ds, hds, hd⟩ :=
    (Decimal.allDigits_toDigits n.natAbs).isNumeral Nat.toDigits_ne_nil
  have hbegins : BeginsNumber (Decimal.integerText n).toList := by
    rw [Decimal.integerText, String.toList_append, String.toList_ofList]
    exact beginsNumber_sign (n < 0) ⟨d, ds, hds, hd⟩
  have halone : scalar (Decimal.integerText n).toList = .ok (.int n, []) := by
    rw [Decimal.integerText, String.toList_append, String.toList_ofList, hds, scalar_sign hd, ← hds,
      unsignedNumber_toDigits _ h]
    congr 3
    simp only [decide_eq_true_eq]
    omega
  rw [scalar_append hr hbegins, halone]
  rfl

/-- A number is read back whatever follows it if it is read back alone. -/
theorem scalar_number {x : Float}
    (h : scalar (numbers.write x).toList = .ok (.number x, [])) (hr : EndsNumber rest) :
    scalar ((numbers.write x).toList ++ rest) = .ok (.number x, rest) := by
  have named (name : String) (y : Float) (hc : (name, .number y) ∈ constants)
      (h : scalar name.toList = .ok (.number x, [])) :
      scalar (name.toList ++ rest) = .ok (.number x, rest) := by
    have hsame : scalar (name.toList ++ []) = .ok (.number y, []) := scalar_constant hc
    rw [List.append_nil, h] at hsame
    cases hsame
    exact scalar_constant hc
  unfold Decimal.Notation.write at h ⊢
  split at h
  · exact named "NaN" (0.0 / 0.0) (by simp [constants]) h
  · next negative _ =>
    cases negative with
    | false => exact named "Infinity" (1.0 / 0.0) (by simp [constants]) h
    | true => exact named "-Infinity" (-1.0 / 0.0) (by simp [constants]) h
  · next negative factor scale _ =>
    rw [String.toList_append, String.toList_ofList] at h ⊢
    have hbegins := beginsNumber_sign (negative = true)
      (Decimal.isNumeral_layout numbers (Decimal.shortest factor scale)).head
    rw [scalar_append hr hbegins, h]
    rfl

/-- What is read as a constant or a number begins as one. -/
theorem scalar_begins {cs : List Char} {result : Json × List Char} (h : scalar cs = .ok result) :
    ∃ c tail, cs = c :: tail ∧ BeginsScalar c := by
  cases cs with
  | nil => cases h
  | cons c tail =>
    refine ⟨c, tail, rfl, fun hc => ?_⟩
    simp only [blanks, List.mem_cons, List.not_mem_nil, or_false] at hc
    rcases hc with rfl | rfl | rfl | rfl | rfl | rfl | rfl <;> cases h

/-- A constant or a number that is read as such, whatever follows it. -/
theorem datum_of_scalar {value : Json} {cs : List Char} {fuel room : Nat}
    (h : ∀ rest, EndsNumber rest → scalar (cs ++ rest) = .ok (value, rest))
    (hf : 2 * cs.length ≤ fuel) (hr : EndsNumber rest) :
    datum fuel room (cs ++ rest) = .ok (value, rest) := by
  have halone := h [] nofun
  rw [List.append_nil] at halone
  obtain ⟨c, tail, rfl, hc⟩ := scalar_begins halone
  obtain ⟨less, rfl⟩ : ∃ less, fuel = less + 1 := ⟨fuel - 1, by simp at hf; omega⟩
  rw [List.cons_append, datum_scalar hc]
  exact h rest hr

end GameScript.Json
