import GameScript.Decimal.Notation
import GameScript.Proofs.Decimal.Interval
import Mathlib.Data.List.TakeWhile

/-! # A number is known by its text

The text of a number can be read: the digits before and behind the point, and the exponent behind
the mark for it. Whatever the layout, what is read are the digits that were laid out. These are
digits that no other number has, so two finite numbers of the same sign differ in their texts. -/

namespace GameScript.Decimal

/-! ## Reading a text -/

/-- What digits with a point among them stand for. -/
def pointValue (text : List Char) : ℚ :=
  let fraction := (text.dropWhile (· ≠ '.')).drop 1
  Nat.ofDigitChars 10 (text.takeWhile (· ≠ '.') ++ fraction) 0 * 10 ^ (-(fraction.length : Int))

/-- What digits behind a sign stand for. -/
def signedValue : List Char → Int
  | [] => 0
  | sign :: digits =>
    if sign = '-' then -(Nat.ofDigitChars 10 digits 0 : Int) else Nat.ofDigitChars 10 digits 0

/-- What a decimal text stands for, with the exponent behind its mark if there is one. -/
def textValue (text : List Char) : ℚ :=
  pointValue (text.takeWhile (· ≠ 'e')) * 10 ^ signedValue ((text.dropWhile (· ≠ 'e')).drop 1)

section Reading

variable {mark : Char} {cs rest : List Char}

theorem takeWhile_ne_mark (h : mark ∉ cs) :
    (cs ++ mark :: rest).takeWhile (· ≠ mark) = cs := by
  have hall : ∀ c ∈ cs, decide (c ≠ mark) = true := fun c hc => decide_eq_true fun he => h (he ▸ hc)
  rw [List.takeWhile_append_of_pos hall]
  simp

theorem dropWhile_ne_mark (h : mark ∉ cs) :
    ((cs ++ mark :: rest).dropWhile (· ≠ mark)).drop 1 = rest := by
  have hall : ∀ c ∈ cs, decide (c ≠ mark) = true := fun c hc => decide_eq_true fun he => h (he ▸ hc)
  rw [List.dropWhile_append_of_pos hall]
  simp

theorem takeWhile_no_mark (h : mark ∉ cs) : cs.takeWhile (· ≠ mark) = cs :=
  List.takeWhile_eq_self_iff.mpr fun _ hc => decide_eq_true fun he => h (he ▸ hc)

theorem dropWhile_no_mark (h : mark ∉ cs) : (cs.dropWhile (· ≠ mark)).drop 1 = [] := by
  have hnil : cs.dropWhile (· ≠ mark) = [] :=
    List.dropWhile_eq_nil_iff.mpr fun _ hc => decide_eq_true fun he => h (he ▸ hc)
  rw [hnil, List.drop_nil]

theorem textValue_plain (h : 'e' ∉ cs) : textValue cs = pointValue cs := by
  rw [textValue, takeWhile_no_mark h, dropWhile_no_mark h, signedValue, zpow_zero, mul_one]

theorem textValue_exponent (h : 'e' ∉ cs) :
    textValue (cs ++ 'e' :: rest) = pointValue cs * 10 ^ signedValue rest := by
  rw [textValue, takeWhile_ne_mark h, dropWhile_ne_mark h]

theorem pointValue_point (h : '.' ∉ cs) : pointValue (cs ++ '.' :: rest) =
    Nat.ofDigitChars 10 (cs ++ rest) 0 * 10 ^ (-(rest.length : Int)) := by
  rw [pointValue, takeWhile_ne_mark h, dropWhile_ne_mark h]

theorem pointValue_whole (h : '.' ∉ cs) : pointValue cs = Nat.ofDigitChars 10 cs 0 := by
  rw [pointValue, takeWhile_no_mark h, dropWhile_no_mark h]
  simp

end Reading

/-! ## Layouts -/

/-- Decimal digits and nothing else. -/
def AllDigits (cs : List Char) : Prop := ∀ c ∈ cs, c.isDigit = true

theorem allDigits_toDigits (n : Nat) : AllDigits (Nat.toDigits 10 n) := fun _ hc =>
  Nat.isDigit_of_mem_toDigits (by decide) (by decide) hc

theorem allDigits_zeros (n : Nat) : AllDigits (List.replicate n '0') := fun _ hc => by
  rw [List.eq_of_mem_replicate hc]
  decide

theorem AllDigits.append {cs ds : List Char} (hc : AllDigits cs) (hd : AllDigits ds) :
    AllDigits (cs ++ ds) := fun c h => (List.mem_append.mp h).elim (hc c) (hd c)

theorem AllDigits.notMem {cs : List Char} (h : AllDigits cs) {c : Char} (hc : c.isDigit = false) :
    c ∉ cs := fun hmem => by
  rw [h c hmem] at hc
  cases hc

theorem ofDigitChars_append_zeros (cs : List Char) (n : Nat) :
    Nat.ofDigitChars 10 (cs ++ List.replicate n '0') 0 = 10 ^ n * Nat.ofDigitChars 10 cs 0 := by
  rw [Nat.ofDigitChars_append, Nat.ofDigitChars_replicate_zero]

theorem ofDigitChars_zeros_append (cs : List Char) (n : Nat) :
    Nat.ofDigitChars 10 (List.replicate n '0' ++ cs) 0 = Nat.ofDigitChars 10 cs 0 := by
  rw [Nat.ofDigitChars_append, Nat.ofDigitChars_replicate_zero, Nat.mul_zero]

theorem pointValue_digits {whole fraction : List Char} (hw : AllDigits whole) :
    pointValue (whole ++ '.' :: fraction) =
      Nat.ofDigitChars 10 (whole ++ fraction) 0 * 10 ^ (-(fraction.length : Int)) :=
  pointValue_point (hw.notMem (by decide))

theorem AllDigits.notMem_point {whole fraction : List Char} (hw : AllDigits whole)
    (hf : AllDigits fraction) : 'e' ∉ whole ++ '.' :: fraction := by
  rw [List.mem_append, List.mem_cons]
  rintro (h | h | h)
  · exact hw.notMem (by decide) h
  · cases h
  · exact hf.notMem (by decide) h

/-- There are digits on both sides of a point. -/
theorem withPoint_eq {digits : List Char} (h : AllDigits digits) (hne : digits ≠ []) (place : Int) :
    ∃ whole fraction, AllDigits whole ∧ whole ≠ [] ∧ AllDigits fraction ∧
      withPoint digits place = whole ++ '.' :: fraction := by
  unfold withPoint
  split
  · exact ⟨['0'], _, allDigits_zeros 1, by simp, (allDigits_zeros _).append h, rfl⟩
  · refine ⟨_, _, .append (fun c hc => h c (List.mem_of_mem_take hc)) (allDigits_zeros _), ?_, ?_,
      rfl⟩
    · rw [Ne, List.append_eq_nil_iff, not_and_or, List.take_eq_nil_iff]
      exact .inl fun htake => htake.elim (by omega) hne
    · split
      · exact allDigits_zeros 1
      · exact fun c hc => h c (List.mem_of_mem_drop hc)

section WithPoint

variable {digits : List Char} (h : AllDigits digits)

include h

/-- Zeros in front of digits, with the point before all of them. -/
theorem textValue_fraction (zeros : Nat) :
    textValue (['0'] ++ '.' :: (List.replicate zeros '0' ++ digits)) =
      Nat.ofDigitChars 10 digits 0 * 10 ^ (-(zeros + digits.length : Int)) := by
  have hwhole : AllDigits ['0'] := allDigits_zeros 1
  have hfraction : AllDigits (List.replicate zeros '0' ++ digits) := (allDigits_zeros _).append h
  have hdigits := ofDigitChars_zeros_append digits (zeros + 1)
  rw [List.replicate_succ, List.cons_append] at hdigits
  rw [textValue_plain (hwhole.notMem_point hfraction), pointValue_digits hwhole,
    List.singleton_append, hdigits, List.length_append, List.length_replicate, Nat.cast_add]

/-- Zeros behind digits, with the point before the last of them. -/
theorem textValue_whole (zeros : Nat) :
    textValue (digits ++ List.replicate zeros '0' ++ '.' :: ['0']) =
      Nat.ofDigitChars 10 digits 0 * 10 ^ zeros := by
  have hwhole : AllDigits (digits ++ List.replicate zeros '0') := h.append (allDigits_zeros _)
  have hfraction : AllDigits ['0'] := allDigits_zeros 1
  have hall : digits ++ List.replicate zeros '0' ++ ['0'] =
      digits ++ List.replicate (zeros + 1) '0' := by
    rw [List.replicate_succ', List.append_assoc]
  rw [textValue_plain (hwhole.notMem_point hfraction), pointValue_digits hwhole, hall,
    ofDigitChars_append_zeros]
  push_cast
  rw [List.length_singleton, Nat.cast_one, zpow_neg_one]
  ring

/-- A point between digits. -/
theorem textValue_between (n : Nat) :
    textValue (digits.take n ++ '.' :: digits.drop n) =
      Nat.ofDigitChars 10 digits 0 * 10 ^ (-((digits.length - n : Nat) : Int)) := by
  have hwhole : AllDigits (digits.take n) := fun c hc => h c (List.mem_of_mem_take hc)
  have hfraction : AllDigits (digits.drop n) := fun c hc => h c (List.mem_of_mem_drop hc)
  rw [textValue_plain (hwhole.notMem_point hfraction), pointValue_digits hwhole,
    List.take_append_drop, List.length_drop]

/-- Moving the point is a power of ten. -/
theorem textValue_withPoint (place : Int) :
    textValue (withPoint digits place) =
      Nat.ofDigitChars 10 digits 0 * 10 ^ (place - digits.length) := by
  unfold withPoint
  split
  · refine (textValue_fraction h _).trans ?_
    congr 2
    omega
  · dsimp only
    by_cases hlong : digits.length ≤ place.toNat
    · rw [List.take_of_length_le hlong, List.drop_of_length_le hlong, List.isEmpty_nil,
        if_pos rfl, textValue_whole h, ← zpow_natCast]
      congr 2
      omega
    · have hne : (digits.drop place.toNat).isEmpty = false := by simpa using hlong
      rw [hne, if_neg (by decide), Nat.sub_eq_zero_of_le (by omega), List.replicate_zero,
        List.append_nil, textValue_between h]
      congr 2
      omega

end WithPoint

/-- The digits before an exponent. -/
def mantissa : List Char → List Char
  | [d] => [d]
  | d :: rest => d :: '.' :: rest
  | [] => []

theorem layout_eq (style : Notation) (d : Digits) : style.layout d =
    let digits := Nat.toDigits 10 d.digits
    let leading : Int := d.exponent + digits.length - 1
    if d.digits = 0 then ['0', '.', '0']
    else if style.least ≤ leading && leading < style.bound then withPoint digits (leading + 1)
    else mantissa digits ++ 'e' :: (if leading < 0 then '-' else '+') ::
      (List.replicate (style.exponentWidth - (Nat.toDigits 10 leading.natAbs).length) '0' ++
        Nat.toDigits 10 leading.natAbs) := by
  rw [Notation.layout]
  rcases Nat.toDigits 10 d.digits with _ | ⟨c, _ | ⟨e, rest⟩⟩ <;> simp [mantissa]

theorem signedValue_exponent (leading : Int) (width : Nat) :
    signedValue ((if leading < 0 then '-' else '+') ::
      (List.replicate width '0' ++ Nat.toDigits 10 leading.natAbs)) = leading := by
  rw [signedValue, ofDigitChars_zeros_append, Nat.ofDigitChars_ten_toDigits]
  split
  · rw [if_pos rfl]
    omega
  · rw [if_neg (by decide)]
    omega

/-- Digits with a point behind the first of them, if there are more. -/
theorem pointValue_mantissa {digits : List Char} (h : AllDigits digits) (hne : digits ≠ []) :
    'e' ∉ mantissa digits ∧ pointValue (mantissa digits) =
      Nat.ofDigitChars 10 digits 0 * 10 ^ (1 - digits.length : Int) := by
  obtain ⟨d, rest, rfl⟩ := List.exists_cons_of_ne_nil hne
  have hd : AllDigits [d] := fun c hc => h c (by simp_all)
  have hrest : AllDigits rest := fun c hc => h c (List.mem_cons_of_mem d hc)
  cases rest with
  | nil =>
    have hpoint : '.' ∉ [d] := hd.notMem (by decide)
    exact ⟨hd.notMem (by decide), by simp [mantissa, pointValue_whole hpoint]⟩
  | cons e rest =>
    refine ⟨hd.notMem_point hrest, (pointValue_digits hd).trans ?_⟩
    congr 2

/-- Reading a layout gives the digits that were laid out. -/
theorem textValue_layout (style : Notation) (d : Digits) :
    textValue (style.layout d) = d.value := by
  have hdigits := allDigits_toDigits d.digits
  have hvalue : Nat.ofDigitChars 10 (Nat.toDigits 10 d.digits) 0 = d.digits :=
    Nat.ofDigitChars_ten_toDigits
  rw [layout_eq, Digits.value]
  dsimp only
  split
  · rename_i hzero
    have hpoint : pointValue (['0'] ++ '.' :: ['0']) = _ := pointValue_digits (allDigits_zeros 1)
    rw [hzero, Nat.cast_zero, zero_mul, textValue_plain (by decide)]
    exact hpoint.trans (by simp [Nat.ofDigitChars])
  · split
    · rw [textValue_withPoint hdigits, hvalue]
      congr 2
      omega
    · obtain ⟨hmark, hmantissa⟩ := pointValue_mantissa hdigits Nat.toDigits_ne_nil
      rw [textValue_exponent hmark, hmantissa, signedValue_exponent, hvalue, mul_assoc,
        ← zpow_add₀ (by norm_num)]
      congr 2
      omega

/-! ## Numbers -/

theorem toBits_inj {x y : Float} (h : x.toBits.toNat = y.toBits.toNat) : x = y := by
  have hbits : x.toModel.toBits = y.toModel.toBits := UInt64.toNat_inj.mp h
  obtain ⟨⟨bits, hvalid⟩⟩ := x
  obtain ⟨⟨bits', hvalid'⟩⟩ := y
  cases hbits
  rfl

section Parts

variable {x y : Float} {negative : Bool} {factor : Nat} {scale : Int}

/-- The bits of a finite number are made of its parts. -/
theorem toBits_of_parts (h : parts x = .finite negative factor scale) :
    Canonical factor scale ∧ x.toBits.toNat = (if negative then signBit else 0) +
      if factor < leadingOne then factor
      else (scale + 1075).toNat * leadingOne + (factor - leadingOne) := by
  have hsize : x.toBits.toNat < 2 * signBit := x.toBits.toNat_lt_size
  unfold parts at h
  dsimp only at h
  generalize x.toBits.toNat = bits at h hsize
  unfold leadingOne signBit at *
  split at h
  · split at h <;> cases h
  · split at h <;> cases h
    · refine ⟨⟨by omega, by unfold leadingOne; omega, by omega⟩, ?_⟩
      split <;> split <;> simp_all <;> omega
    · refine ⟨⟨by omega, by unfold leadingOne; omega, by unfold leadingOne; omega⟩, ?_⟩
      split <;> split <;> simp_all <;> omega

theorem parts_inj (hx : parts x = .finite negative factor scale)
    (hy : parts y = .finite negative factor scale) : x = y :=
  toBits_inj ((toBits_of_parts hx).2.trans (toBits_of_parts hy).2.symm)

theorem integer?_eq_some {n : Int} (h : parts x = .finite false factor scale)
    (hn : integer? x = some n) : ∃ m : Nat, n = m ∧ (m : ℚ) = factor * 2 ^ scale := by
  have htwo := zpow_mul_power (by decide : 2 ≠ 0) scale
  rw [integer?, h] at hn
  obtain ⟨_, hmagnitude, rfl⟩ := Option.map_eq_some_iff.mp hn
  obtain ⟨m, hm, ⟨⟩⟩ := Option.bind_eq_some_iff.mp hmagnitude
  refine ⟨m, rfl, ?_⟩
  split at hm
  · have hone : power 2 (-scale) = 1 := by simp [power, show (-scale).toNat = 0 by omega]
    cases hm
    rw [hone, Nat.cast_one, mul_one] at htwo
    push_cast at htwo ⊢
    rw [htwo]
  · split at hm
    · rename_i hrest
      have hone : power 2 scale = 1 := by simp [power, show scale.toNat = 0 by omega]
      cases hm
      have hfactor : (factor : ℚ) = (factor / power 2 (-scale) : ℕ) * (power 2 (-scale) : ℕ) := by
        exact_mod_cast (Nat.div_mul_cancel (Nat.dvd_of_mod_eq_zero hrest)).symm
      rw [hone] at htwo
      push_cast at htwo
      rw [hfactor, mul_assoc, mul_comm ((power 2 (-scale) : ℕ) : ℚ), htwo, mul_one]
    · cases hm

theorem factor_ne_zero (h : parts x = .finite false factor scale) (hn : integer? x = none) :
    factor ≠ 0 := by
  rintro rfl
  simp [integer?, h] at hn

end Parts

/-- A finite number that is not negative. -/
def IsMagnitude (x : Float) : Prop := ∃ factor scale, parts x = .finite false factor scale

theorem integerText_natCast (n : Nat) : (integerText n).toList = Nat.toDigits 10 n := by
  simp [integerText]

/-- A layout is never mistaken for an integer. -/
theorem not_allDigits_layout (style : Notation) (d : Digits) : ¬ AllDigits (style.layout d) := by
  rw [layout_eq]
  dsimp only
  intro h
  split at h
  · exact h.notMem (by decide : Char.isDigit '.' = false) (by simp)
  · split at h
    · obtain ⟨whole, fraction, -, -, -, hpoint⟩ :=
        withPoint_eq (allDigits_toDigits d.digits) Nat.toDigits_ne_nil _
      rw [hpoint] at h
      exact h.notMem (by decide : Char.isDigit '.' = false) (by simp)
    · exact h.notMem (by decide : Char.isDigit 'e' = false) (by simp)

/-- What the text of a number that is not negative is: the digits of an integer, or a layout of the
shortest digits. -/
theorem text_cases {x : Float} {factor : Nat} {scale : Int}
    (h : parts x = .finite false factor scale) :
    (∃ m : Nat, (m : ℚ) = factor * 2 ^ scale ∧ (text x).toList = Nat.toDigits 10 m) ∨
      factor ≠ 0 ∧ (text x).toList = Notation.plain.layout (shortest factor scale) := by
  cases hn : integer? x with
  | some n =>
    obtain ⟨m, rfl, hm⟩ := integer?_eq_some h hn
    refine .inl ⟨m, hm, ?_⟩
    rw [text, hn]
    exact integerText_natCast m
  | none =>
    refine .inr ⟨factor_ne_zero h hn, ?_⟩
    rw [text, hn]
    simp [Notation.write, h]

/-- Numbers that are not negative differ in their texts. -/
theorem text_inj {x y : Float} (hx : IsMagnitude x) (hy : IsMagnitude y) (h : text x = text y) :
    x = y := by
  obtain ⟨factor, scale, hx⟩ := hx
  obtain ⟨factor', scale', hy⟩ := hy
  have hc := (toBits_of_parts hx).1
  have hc' := (toBits_of_parts hy).1
  suffices hparts : factor = factor' ∧ scale = scale' by
    obtain ⟨rfl, rfl⟩ := hparts
    exact parts_inj hx hy
  rcases text_cases hx with ⟨m, hm, ht⟩ | ⟨hf, ht⟩ <;>
    rcases text_cases hy with ⟨m', hm', ht'⟩ | ⟨hf', ht'⟩ <;>
    rw [h] at ht
  · have hdigits := congrArg (Nat.ofDigitChars 10 · 0) (ht.symm.trans ht')
    rw [Nat.ofDigitChars_ten_toDigits, Nat.ofDigitChars_ten_toDigits] at hdigits
    have hv : (factor' * 2 ^ scale' : ℚ) = factor * 2 ^ scale := by rw [← hm, ← hm', hdigits]
    exact rounds_unique hc hc' (rounds_self factor scale) (hv ▸ rounds_self factor' scale')
  · exact absurd (ht ▸ allDigits_toDigits m) (ht' ▸ not_allDigits_layout _ _)
  · exact absurd (ht' ▸ allDigits_toDigits m') (ht ▸ not_allDigits_layout _ _)
  · refine shortest_value_inj hc hc' hf hf' ?_
    rw [← textValue_layout .plain, ← textValue_layout .plain, ← ht, ← ht']

/-! ## The characters of a number -/

/-- The characters that texts of numbers are made of. -/
def IsNumeralChar (c : Char) : Prop := c.isDigit = true ∨ c ∈ ['.', 'e', '+', '-']

instance (c : Char) : Decidable (IsNumeralChar c) :=
  inferInstanceAs (Decidable (c.isDigit = true ∨ c ∈ ['.', 'e', '+', '-']))

/-- A text of such characters that begins with a digit. -/
structure IsNumeral (cs : List Char) : Prop where
  chars : ∀ c ∈ cs, IsNumeralChar c
  head : ∃ d rest, cs = d :: rest ∧ d.isDigit = true

theorem AllDigits.isNumeral {cs : List Char} (h : AllDigits cs) (hne : cs ≠ []) :
    IsNumeral cs := by
  obtain ⟨d, rest, rfl⟩ := List.exists_cons_of_ne_nil hne
  exact ⟨fun c hc => .inl (h c hc), d, rest, rfl, h d (by simp)⟩

theorem IsNumeral.append {cs ds : List Char} (h : IsNumeral cs)
    (hd : ∀ c ∈ ds, c ∈ ['.', 'e', '+', '-'] ∨ c.isDigit = true) : IsNumeral (cs ++ ds) := by
  obtain ⟨hchars, d, rest, rfl, hhead⟩ := h
  refine ⟨fun c hc => ?_, d, rest ++ ds, rfl, hhead⟩
  exact (List.mem_append.mp hc).elim (hchars c) fun hc => (hd c hc).symm

theorem isNumeral_layout (style : Notation) (d : Digits) : IsNumeral (style.layout d) := by
  have hpoint : ∀ {whole fraction : List Char}, AllDigits whole → whole ≠ [] → AllDigits fraction →
      IsNumeral (whole ++ '.' :: fraction) := fun hw hne hf =>
    (hw.isNumeral hne).append
      (List.forall_mem_cons.mpr ⟨.inl (by decide), fun c hc => .inr (hf c hc)⟩)
  have hdigits := allDigits_toDigits d.digits
  rw [layout_eq]
  dsimp only
  split
  · exact hpoint (allDigits_zeros 1) (by simp) (allDigits_zeros 1)
  · split
    · obtain ⟨whole, fraction, hw, hne, hf, hwith⟩ := withPoint_eq hdigits Nat.toDigits_ne_nil _
      rw [hwith]
      exact hpoint hw hne hf
    · have hmantissa : IsNumeral (mantissa (Nat.toDigits 10 d.digits)) := by
        obtain ⟨e, rest, he⟩ :=
          List.exists_cons_of_ne_nil (Nat.toDigits_ne_nil (n := d.digits) (b := 10))
        rw [he] at hdigits ⊢
        have hfirst : AllDigits [e] := fun c hc => hdigits c (by simp_all)
        cases rest with
        | nil => exact hfirst.isNumeral (by simp)
        | cons f rest =>
          exact hpoint hfirst (by simp) fun c hc => hdigits c (List.mem_cons_of_mem e hc)
      refine hmantissa.append (List.forall_mem_cons.mpr ⟨.inl (by decide), ?_⟩)
      refine List.forall_mem_cons.mpr ⟨.inl (by split <;> decide), fun c hc => .inr ?_⟩
      exact ((allDigits_zeros _).append (allDigits_toDigits _)) c hc

theorem isNumeral_text {x : Float} (hx : IsMagnitude x) : IsNumeral (text x).toList := by
  obtain ⟨factor, scale, hx⟩ := hx
  rcases text_cases hx with ⟨m, -, ht⟩ | ⟨-, ht⟩ <;> rw [ht]
  · exact (allDigits_toDigits m).isNumeral Nat.toDigits_ne_nil
  · exact isNumeral_layout _ _

end GameScript.Decimal
