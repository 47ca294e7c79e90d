import GameScript.Json.Writer
import GameScript.Text.Blank

/-! # JSON text is read from a file as it was written

Reading a file turns carriage returns into line feeds. JSON text has none: in a string they are
escaped, and nothing else is written with one. -/

namespace GameScript

theorem Text.unifyLineEnds_of_notMem {cs : List Char} (h : '\r' ∉ cs) : unifyLineEnds cs = cs := by
  fun_induction unifyLineEnds cs with
  | case1 => rfl
  | case2 => simp at h
  | case3 => simp at h
  | case4 c rest _ _ ih =>
    rw [ih fun hr => h (List.mem_cons_of_mem c hr)]

/-- A text without carriage returns. -/
def NoReturns (text : String) : Prop := '\r' ∉ text.toList

namespace NoReturns

theorem append {s t : String} (hs : NoReturns s) (ht : NoReturns t) : NoReturns (s ++ t) := by
  unfold NoReturns at *
  rw [String.toList_append, List.mem_append]
  exact fun h => h.elim hs ht

theorem ofList {cs : List Char} (h : '\r' ∉ cs) : NoReturns (String.ofList cs) := by
  unfold NoReturns
  rwa [String.toList_ofList]

theorem intercalate {s : String} {parts : List String} (hs : NoReturns s)
    (hp : ∀ part ∈ parts, NoReturns part) : NoReturns (s.intercalate parts) := by
  induction parts with
  | nil => exact ofList (by simp)
  | cons part rest ih =>
    have hpart := hp part (by simp)
    have hrest := ih fun part h => hp part (by simp [h])
    by_cases he : rest = []
    · rw [he, String.intercalate_singleton]
      exact hpart
    · rw [String.intercalate_cons_of_ne_nil he]
      exact (hpart.append hs).append hrest

/-! ## Numbers -/

theorem digitChar_ne (d : Nat) : '\r' ≠ Nat.digitChar d := by
  by_cases h : d < 16
  · have hsmall : ∀ d < 16, '\r' ≠ Nat.digitChar d := by decide
    exact hsmall d h
  · have hstar : Nat.digitChar d = '*' := by
      unfold Nat.digitChar
      repeat rw [if_neg (by omega)]
    rw [hstar]
    decide

theorem notMem_toDigitsCore (base fuel n : Nat) {done : List Char} (h : '\r' ∉ done) :
    '\r' ∉ Nat.toDigitsCore base fuel n done := by
  induction fuel generalizing n done with
  | zero => exact h
  | succ fuel ih =>
    have hcons : '\r' ∉ Nat.digitChar (n % base) :: done := by simp [h, digitChar_ne]
    rw [Nat.toDigitsCore]
    split
    · exact hcons
    · exact ih _ hcons

theorem notMem_toDigits (base n : Nat) : '\r' ∉ Nat.toDigits base n :=
  notMem_toDigitsCore base (n + 1) n (by simp)

theorem sign (negative : Prop) [Decidable negative] : NoReturns (if negative then "-" else "") := by
  split
  · exact ofList (by decide : '\r' ∉ ['-'])
  · exact ofList (by decide : '\r' ∉ [])

theorem integerText (n : Int) : NoReturns (Decimal.integerText n) :=
  (sign (n < 0)).append (ofList (notMem_toDigits 10 _))

theorem withPoint {digits : List Char} (h : '\r' ∉ digits) (place : Int) :
    '\r' ∉ Decimal.withPoint digits place := by
  have htake (n : Nat) : '\r' ∉ digits.take n := fun hm => h (List.mem_of_mem_take hm)
  have hdrop (n : Nat) : '\r' ∉ digits.drop n := fun hm => h (List.mem_of_mem_drop hm)
  unfold Decimal.withPoint
  split
  · simp [List.mem_replicate, h]
  · dsimp only
    split
    · simp [List.mem_replicate, htake]
    · simp [List.mem_replicate, htake, hdrop]

theorem layout (style : Decimal.Notation) (d : Decimal.Digits) : '\r' ∉ style.layout d := by
  have hdigits := notMem_toDigits 10 d.digits
  unfold Decimal.Notation.layout
  dsimp only
  split
  · decide
  · split
    · exact withPoint hdigits _
    · generalize Nat.toDigits 10 d.digits = digits at hdigits
      have hpower (n : Nat) := notMem_toDigits 10 n
      have hsign (p : Prop) [Decidable p] : '\r' ≠ if p then '-' else '+' := by split <;> decide
      split <;> simp_all [List.mem_replicate]

theorem write {style : Decimal.Notation} (hi : NoReturns style.infinity)
    (hu : NoReturns style.undefined) (x : Float) : NoReturns (style.write x) := by
  unfold Decimal.Notation.write
  split
  · exact hu
  · exact (sign _).append hi
  · exact (sign _).append (ofList (layout style _))

/-! ## Strings -/

theorem unitEscape (unit : Nat) : '\r' ∉ Json.unitEscape unit := by
  simp [Json.unitEscape, Text.hex, List.mem_replicate, notMem_toDigits]

theorem stringChar (ascii : Bool) (c : Char) : '\r' ∉ Json.stringChar ascii c := by
  unfold Json.stringChar
  split
  · rename_i h
    simp only [Bool.or_eq_true, decide_eq_true_eq] at h
    rcases h with rfl | rfl <;> decide
  · split
    · decide
    · split
      · decide
      · rename_i hr
        repeat' split
        · decide
        · decide
        · decide
        · unfold Json.unitEscapes
          dsimp only
          split
          · exact unitEscape _
          · simp [unitEscape]
        · simpa using Ne.symm hr

theorem stringText (ascii : Bool) (s : String) : NoReturns (Json.stringText ascii s) := by
  refine ofList ?_
  simp [stringChar]

/-! ## Data -/

theorem newline (level : Nat) : NoReturns (Json.newline level) :=
  ofList (by simp [List.mem_replicate])

theorem bracketed {opening closing : String} (ho : NoReturns opening) (hc : NoReturns closing)
    (level : Nat) {parts : List String} (hp : ∀ part ∈ parts, NoReturns part) :
    NoReturns (Json.bracketed opening closing level parts) := by
  have hcomma : NoReturns "," := ofList (by decide : '\r' ∉ [','])
  unfold Json.bracketed
  split
  · exact ho.append hc
  · exact (((ho.append (newline _)).append
      (intercalate (hcomma.append (newline _)) hp)).append (newline _)).append hc

theorem number (x : Float) : NoReturns (Json.numbers.write x) :=
  write (ofList (by decide : '\r' ∉ "Infinity".toList)) (ofList (by decide : '\r' ∉ "NaN".toList)) x

mutual

theorem indented (ascii : Bool) : ∀ (datum : Json) (level : Nat), NoReturns (datum.indented ascii level)
  | .null, _ => ofList (by decide : '\r' ∉ "null".toList)
  | .bool true, _ => ofList (by decide : '\r' ∉ "true".toList)
  | .bool false, _ => ofList (by decide : '\r' ∉ "false".toList)
  | .int n, _ => integerText n
  | .number x, _ => number x
  | .string s, _ => stringText ascii s
  | .array items, level =>
    bracketed (ofList (by decide : '\r' ∉ ['['])) (ofList (by decide : '\r' ∉ [']'])) level
      (indentedItems ascii items (level + 1))
  | .object members, level =>
    bracketed (ofList (by decide : '\r' ∉ ['\x7b'])) (ofList (by decide : '\r' ∉ ['\x7d'])) level
      (indentedMembers ascii members (level + 1))

theorem indentedItems (ascii : Bool) : ∀ (items : List Json) (level : Nat),
    ∀ text ∈ Json.indentedItems ascii items level, NoReturns text
  | [], _ => nofun
  | item :: rest, level => by
    rw [Json.indentedItems]
    intro text h
    rcases h with _ | ⟨_, ht⟩
    · exact indented ascii item level
    · exact indentedItems ascii rest level text ht

theorem indentedMembers (ascii : Bool) : ∀ (members : List (String × Json)) (level : Nat),
    ∀ text ∈ Json.indentedMembers ascii members level, NoReturns text
  | [], _ => nofun
  | (key, value) :: rest, level => by
    have hcolon : NoReturns ": " := ofList (by decide : '\r' ∉ ": ".toList)
    rw [Json.indentedMembers]
    intro text h
    rcases h with _ | ⟨_, ht⟩
    · exact ((stringText ascii key).append hcolon).append (indented ascii value level)
    · exact indentedMembers ascii rest level text ht

end

end NoReturns

/-- The text of a datum is read from a file as it is. -/
theorem Json.unifyLineEnds_indented (ascii : Bool) (datum : Json) (level : Nat) :
    String.ofList (Text.unifyLineEnds (datum.indented ascii level).toList) =
      datum.indented ascii level := by
  rw [Text.unifyLineEnds_of_notMem (NoReturns.indented ascii datum level), String.ofList_toList]

end GameScript
