import GameScript.Decimal.Shortest
import GameScript.Text.Digit

/-! Decimal text of binary numbers, and back. -/

namespace GameScript.Decimal

/-- How the digits of a number are laid out. -/
structure Notation where
  /-- The least decimal exponent that is written positionally. -/
  least : Int
  /-- The first decimal exponent that is too large to be written positionally. -/
  bound : Int
  /-- The least number of digits of an exponent. -/
  exponentWidth : Nat
  /-- The text of positive infinity. -/
  infinity : String
  /-- The text of an undefined result. -/
  undefined : String

/-- Numbers are written positionally from `10 ^ -4` up to `10 ^ 16`, always with a point; beyond
that with a signed exponent of at least two digits. -/
def Notation.plain : Notation := ⟨-4, 16, 2, "inf", "nan"⟩

/-- Digits with a point after the first `place` of them. There is a digit on each side of it. -/
def withPoint (digits : List Char) (place : Int) : List Char :=
  if place ≤ 0 then '0' :: '.' :: List.replicate (-place).toNat '0' ++ digits
  else
    let n := place.toNat
    let whole := digits.take n ++ List.replicate (n - digits.length) '0'
    let fraction := digits.drop n
    whole ++ '.' :: if fraction.isEmpty then ['0'] else fraction

/-- The text of a magnitude. -/
def Notation.layout (style : Notation) (d : Digits) : List Char :=
  let digits := Nat.toDigits 10 d.digits
  let leading : Int := d.exponent + digits.length - 1
  if d.digits = 0 then ['0', '.', '0']
  else if style.least ≤ leading && leading < style.bound then withPoint digits (leading + 1)
  else
    let power := Nat.toDigits 10 leading.natAbs
    let mantissa := match digits with
      | [d] => [d]
      | d :: rest => d :: '.' :: rest
      | [] => []
    mantissa ++ 'e' :: (if leading < 0 then '-' else '+') ::
      List.replicate (style.exponentWidth - power.length) '0' ++ power

/-- The text of a number: the fewest digits that identify it, in the given layout. -/
def Notation.write (style : Notation) (x : Float) : String :=
  match parts x with
  | .undefined => style.undefined
  | .infinite negative => (if negative then "-" else "") ++ style.infinity
  | .finite negative factor scale =>
    (if negative then "-" else "") ++ String.ofList (style.layout (shortest factor scale))

/-- The decimal text of an integer. -/
def integerText (n : Int) : String :=
  (if n < 0 then "-" else "") ++ String.ofList (Nat.toDigits 10 n.natAbs)

/-- A number as programs show it: an integer without a point, however large, and any other number in
the plain layout. -/
def text (x : Float) : String :=
  match integer? x with
  | some n => integerText n
  | none => Notation.plain.write x

/-- The number nearest to `digits * 10 ^ exponent`. The leading digit alone decides for magnitudes
that are beyond all numbers or too small to differ from zero, so no power of ten grows with the
exponent there. -/
def nearest (digits : Nat) (exponent : Int) : Float :=
  let leading : Int := exponent + (Nat.toDigits 10 digits).length - 1
  if digits = 0 || leading < -324 then 0
  else if 308 < leading then 1 / 0
  else Float.ofScientific digits (exponent < 0) exponent.natAbs

/-- The number nearest to `digits * 10 ^ exponent`, negated if asked. -/
def ofDigits (negative : Bool) (digits : Nat) (exponent : Int) : Float :=
  let magnitude := nearest digits exponent
  if negative then -magnitude else magnitude

/-- The number nearest to a whole part and a fraction, both given by their digits. -/
def ofFraction (negative : Bool) (whole fraction : List Char) : Float :=
  ofDigits negative (Text.digitsValue (whole ++ fraction)) (-(fraction.length : Int))

end GameScript.Decimal
