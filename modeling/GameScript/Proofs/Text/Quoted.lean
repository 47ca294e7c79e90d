import GameScript.Text.Quoted
import GameScript.Text.Units
import Mathlib.Algebra.Group.Nat.Defs
import Mathlib.Data.List.Basic

/-! # Texts in quotes end by themselves

No written character begins another one, and none begins with the quote. So a text in quotes can be
read off the front of whatever it stands in, and different texts differ in quotes. -/

namespace GameScript.Text

/-! ## Hexadecimal digits -/

theorem hexDigit?_digitChar {n : Nat} (h : n < 16) : hexDigit? n.digitChar = some n := by
  have hall : ∀ n < 16, hexDigit? (Nat.digitChar n) = some n := by decide
  exact hall n h

theorem hexValue?_append (cs : List Char) (c : Char) :
    hexValue? (cs ++ [c]) = (do return 16 * (← hexValue? cs) + (← hexDigit? c)) := by
  rw [hexValue?, List.foldl_append]
  rfl

theorem hexValue?_toDigits (n : Nat) : hexValue? (Nat.toDigits 16 n) = some n := by
  induction n using Nat.strongRecOn with
  | ind n ih =>
    rw [Nat.toDigits_eq_if (by decide)]
    split
    · rename_i h
      simp [hexValue?, hexDigit?_digitChar h]
    · rename_i h
      rw [hexValue?_append, ih (n / 16) (by omega), hexDigit?_digitChar (Nat.mod_lt n (by decide))]
      exact congrArg some (Nat.div_add_mod n 16)

/-- Padding does not change the value. -/
theorem hexValue?_hex (width n : Nat) : hexValue? (hex width n) = some n := by
  have hzeros : ∀ k, List.foldl (fun acc c => do return 16 * (← acc) + (← hexDigit? c)) (some 0)
      (List.replicate k '0') = some 0 := by
    intro k
    induction k with
    | zero => rfl
    | succ k ih => exact ih
  rw [hex, hexValue?, List.foldl_append, hzeros]
  exact hexValue?_toDigits n

theorem length_hex {width n : Nat} (hw : 0 < width) (h : n < 16 ^ width) :
    (hex width n).length = width := by
  have hlength := (Nat.length_toDigits_le_iff (by decide) hw).mpr h
  rw [hex, List.length_append, List.length_replicate]
  omega

/-! ## Codes -/

theorem char_range (c : Char) : c.toNat < 0xD800 ∨ 0xDFFF < c.toNat ∧ c.toNat < 0x110000 := c.valid

theorem not_unit (c : Char) : isHighUnit c.toNat = false ∧ isLowUnit c.toNat = false := by
  have hrange := char_range c
  simp only [isHighUnit, isLowUnit, Bool.and_eq_false_iff, decide_eq_false_iff_not]
  omega

theorem ofCodes_cons (c : Char) (codes : List Nat) : ofCodes (c.toNat :: codes) = c :: ofCodes codes := by
  have hcode : codeChar c.toNat = c := by simp [codeChar, not_unit c, Char.ofNat_toNat]
  cases codes with
  | nil => simp [ofCodes, hcode]
  | cons code codes => rw [ofCodes, (not_unit c).1, Bool.false_and, if_neg Bool.false_ne_true, hcode]

theorem ofCodes_toNat (cs : List Char) : ofCodes (cs.map Char.toNat) = cs := by
  induction cs with
  | nil => rfl
  | cons c cs ih => rw [List.map_cons, ofCodes_cons, ih]

/-! ## Parts with a separator -/

theorem toList_intercalate (separator first : String) (rest : List String) :
    (String.intercalate separator (first :: rest)).toList =
      first.toList ++ rest.flatMap fun part => separator.toList ++ part.toList := by
  induction rest generalizing first with
  | nil => simp
  | cons second rest ih =>
    rw [String.intercalate_cons_cons, String.toList_append, String.toList_append, ih,
      List.flatMap_cons, List.append_assoc, List.append_assoc]

/-! ## One character -/

/-- The characters with a short escape, each behind the letter that stands for it. -/
def shortEscapes (quote : Char) : List (Char × Char) :=
  [('\\', '\\'), (quote, quote), ('n', '\n'), ('r', '\r'), ('t', '\t')]

/-- The letters of the numeric escapes and how many digits follow them. -/
def longEscapes : List (Char × Nat) := [('x', 2), ('u', 4), ('U', 8)]

theorem numericEscape_cases (c : Char) : ∃ letter width, (letter, width) ∈ longEscapes ∧
    0 < width ∧ c.toNat < 16 ^ width ∧ numericEscape c = '\\' :: letter :: hex width c.toNat := by
  unfold numericEscape
  dsimp only
  split
  · rename_i h
    exact ⟨'x', 2, by decide, by decide, h, rfl⟩
  · split
    · rename_i h
      exact ⟨'u', 4, by decide, by decide, h, rfl⟩
    · have hc : c.toNat < 16 ^ 8 := c.val.toNat_lt_size
      exact ⟨'U', 8, by decide, by decide, hc, rfl⟩

/-- A character stands for itself, or behind a backslash by a letter or by its number. -/
theorem quotedChar_cases (quote c : Char) :
    (quotedChar quote c = [c] ∧ c ≠ '\\' ∧ c ≠ quote) ∨
      (∃ letter, (letter, c) ∈ shortEscapes quote ∧ quotedChar quote c = ['\\', letter]) ∨
      ∃ letter width, (letter, width) ∈ longEscapes ∧ 0 < width ∧ c.toNat < 16 ^ width ∧
        quotedChar quote c = '\\' :: letter :: hex width c.toNat := by
  unfold quotedChar
  split
  · rename_i h
    refine .inr (.inl ⟨c, ?_, rfl⟩)
    rcases (by simpa using h : c = '\\' ∨ c = quote) with rfl | rfl <;> simp [shortEscapes]
  · rename_i h
    split
    · exact .inr (.inl ⟨'n', by simp_all [shortEscapes], rfl⟩)
    · split
      · exact .inr (.inl ⟨'r', by simp_all [shortEscapes], rfl⟩)
      · split
        · exact .inr (.inl ⟨'t', by simp_all [shortEscapes], rfl⟩)
        · split
          · exact .inl ⟨rfl, by simpa using h⟩
          · exact .inr (.inr (numericEscape_cases c))

section Quote

variable {quote : Char} (hquote : quote = '\'' ∨ quote = '"')

include hquote

theorem shortEscapes_inj {letter c c' : Char} (h : (letter, c) ∈ shortEscapes quote)
    (h' : (letter, c') ∈ shortEscapes quote) : c = c' := by
  have hall : ∀ entry ∈ shortEscapes quote, ∀ entry' ∈ shortEscapes quote,
      entry.1 = entry'.1 → entry.2 = entry'.2 := by
    rcases hquote with rfl | rfl <;> decide
  exact hall _ h _ h' rfl

theorem not_short_of_long {letter c : Char} {width : Nat} (h : (letter, width) ∈ longEscapes) :
    (letter, c) ∉ shortEscapes quote := by
  have hall : ∀ entry ∈ longEscapes, ∀ entry' ∈ shortEscapes quote, entry.1 ≠ entry'.1 := by
    rcases hquote with rfl | rfl <;> decide
  exact fun h' => hall _ h _ h' rfl

theorem quotedChar_head_ne (c : Char) (rest more : List Char) :
    quotedChar quote c ++ rest ≠ quote :: more := by
  have hslash : '\\' ≠ quote := by rcases hquote with rfl | rfl <;> decide
  rcases quotedChar_cases quote c with
      ⟨hc, -, hne⟩ | ⟨letter, -, hc⟩ | ⟨letter, width, -, -, -, hc⟩ <;>
    rw [hc]
  · exact fun h => hne (List.cons.inj h).1
  · exact fun h => hslash (List.cons.inj h).1
  · exact fun h => hslash (List.cons.inj h).1

/-- No written character begins another one. -/
theorem quotedChar_append_inj {c c' : Char} {rest rest' : List Char}
    (h : quotedChar quote c ++ rest = quotedChar quote c' ++ rest') : c = c' ∧ rest = rest' := by
  rcases quotedChar_cases quote c with
      ⟨hc, hne, -⟩ | ⟨letter, hl, hc⟩ | ⟨letter, width, hl, hw, hn, hc⟩ <;>
    rcases quotedChar_cases quote c' with
      ⟨hc', hne', -⟩ | ⟨letter', hl', hc'⟩ | ⟨letter', width', hl', hw', hn', hc'⟩ <;>
    rw [hc, hc'] at h
  · exact List.cons.inj h
  · exact absurd (List.cons.inj h).1 hne
  · exact absurd (List.cons.inj h).1 hne
  · exact absurd (List.cons.inj h).1.symm hne'
  · obtain ⟨rfl, hrest⟩ := List.cons.inj (List.cons.inj h).2
    exact ⟨shortEscapes_inj hquote hl hl', hrest⟩
  · obtain ⟨rfl, -⟩ := List.cons.inj (List.cons.inj h).2
    exact absurd hl (not_short_of_long hquote hl')
  · exact absurd (List.cons.inj h).1.symm hne'
  · obtain ⟨rfl, -⟩ := List.cons.inj (List.cons.inj h).2
    exact absurd hl' (not_short_of_long hquote hl)
  · obtain ⟨rfl, hrest⟩ := List.cons.inj (List.cons.inj h).2
    have hwidth : ∀ entry ∈ longEscapes, ∀ entry' ∈ longEscapes,
        entry.1 = entry'.1 → entry.2 = entry'.2 := by decide
    obtain rfl : width = width' := hwidth _ hl _ hl' rfl
    obtain ⟨hhex, hrest⟩ := List.append_inj hrest (by rw [length_hex hw hn, length_hex hw' hn'])
    have hcode := congrArg hexValue? hhex
    rw [hexValue?_hex, hexValue?_hex] at hcode
    exact ⟨Char.toNat_inj.mp (Option.some.inj hcode), hrest⟩

/-- The first bare quote ends a text. -/
theorem flatMap_quotedChar_append_inj {cs cs' rest rest' : List Char}
    (h : cs.flatMap (quotedChar quote) ++ quote :: rest =
      cs'.flatMap (quotedChar quote) ++ quote :: rest') : cs = cs' ∧ rest = rest' := by
  induction cs generalizing cs' with
  | nil =>
    cases cs' with
    | nil => exact ⟨rfl, (List.cons.inj h).2⟩
    | cons c' cs' =>
      rw [List.flatMap_cons, List.append_assoc] at h
      exact absurd h.symm (quotedChar_head_ne hquote _ _ _)
  | cons c cs ih =>
    cases cs' with
    | nil =>
      rw [List.flatMap_cons, List.append_assoc] at h
      exact absurd h (quotedChar_head_ne hquote _ _ _)
    | cons c' cs' =>
      rw [List.flatMap_cons, List.flatMap_cons, List.append_assoc, List.append_assoc] at h
      obtain ⟨rfl, hmore⟩ := quotedChar_append_inj hquote h
      obtain ⟨rfl, hrest⟩ := ih hmore
      exact ⟨rfl, hrest⟩

end Quote

/-! ## Whole texts -/

theorem quoteFor_cases (cs : List Char) : quoteFor cs = '\'' ∨ quoteFor cs = '"' := by
  unfold quoteFor
  split
  · exact .inr rfl
  · exact .inl rfl

theorem quoted_append_inj {s s' : String} {rest rest' : List Char}
    (h : (quoted s).toList ++ rest = (quoted s').toList ++ rest') : s = s' ∧ rest = rest' := by
  simp only [quoted, String.toList_ofList, List.cons_append, List.append_assoc, List.nil_append,
    List.cons.injEq] at h
  obtain ⟨hquote, h⟩ := h
  rw [← hquote] at h
  obtain ⟨hs, hrest⟩ := flatMap_quotedChar_append_inj (quoteFor_cases _) h
  exact ⟨String.toList_inj.mp hs, hrest⟩

theorem quoted_inj {s s' : String} (h : quoted s = quoted s') : s = s' := by
  have happend : (quoted s).toList ++ [] = (quoted s').toList ++ [] := by rw [h]
  exact (quoted_append_inj happend).1

/-- The quote with which a text begins. -/
theorem quoted_head (s : String) :
    ∃ quote more, (quote = '\'' ∨ quote = '"') ∧ (quoted s).toList = quote :: more :=
  ⟨_, _, quoteFor_cases s.toList, by rw [quoted, String.toList_ofList]; rfl⟩

end GameScript.Text
