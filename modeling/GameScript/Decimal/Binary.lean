/-! The parts of a binary number: a sign, a whole factor and a power of two. -/

namespace GameScript.Decimal

/-- A number taken apart. A finite one is `factor * 2 ^ scale`, negated if `negative`. -/
inductive Parts where
  | undefined
  | infinite (negative : Bool)
  | finite (negative : Bool) (factor : Nat) (scale : Int)
  deriving Repr, DecidableEq

/-- A base to the power of an exponent, which counts as zero if it is below. -/
def power (base : Nat) (exponent : Int) : Nat := Nat.pow base exponent.toNat

/-- The sign's place among the bits of a number, `2 ^ 63`. -/
def signBit : Nat := 0x8000000000000000

/-- The leading one that the bits of a number do not show, `2 ^ 52`. -/
def leadingOne : Nat := 0x10000000000000

/-- The bits hold a sign, eleven bits of exponent and 52 bits of fraction. The largest exponent is
kept for infinities and undefined results, the least one for numbers without a leading one. -/
def parts (x : Float) : Parts :=
  let bits := x.toBits.toNat
  let negative := signBit ≤ bits
  let exponent : Nat := bits / leadingOne % 2048
  let fraction := bits % leadingOne
  if exponent = 2047 then
    if fraction = 0 then .infinite negative else .undefined
  else if exponent = 0 then .finite negative fraction (-1074)
  else .finite negative (leadingOne + fraction) ((exponent : Int) - 1075)

/-- The number as an integer, if it is one. -/
def integer? (x : Float) : Option Int :=
  match parts x with
  | .finite negative factor scale =>
    let magnitude? : Option Nat :=
      if 0 ≤ scale then some (factor * power 2 scale)
      else if factor % power 2 (-scale) = 0 then some (factor / power 2 (-scale))
      else none
    magnitude?.map fun n => if negative then -(n : Int) else n
  | _ => none

/-- The number `factor * 2 ^ scale`, exact if the factor has at most 53 bits and the scale is one
that `parts` gives. -/
def ofParts (negative : Bool) (factor : Nat) (scale : Int) : Float :=
  let magnitude := (Float.ofNat factor).scaleB scale
  if negative then -magnitude else magnitude

/-- The remainder that a truncated division leaves, without its sign. Finite operands are brought to
one power of two, where it is a remainder of whole numbers and so exact. -/
def truncatedRemainder (xFactor : Nat) (xScale : Int) (yFactor : Nat) (yScale : Int) : Nat × Int :=
  let scale := min xScale yScale
  (xFactor * power 2 (xScale - scale) % (yFactor * power 2 (yScale - scale)), scale)

/-- The remainder with the divisor's sign, for a divisor that is not zero: a remainder of the other
sign is moved by one divisor, and a zero remainder takes the divisor's sign. -/
def modulo (x y : Float) : Float :=
  let settle (xNegative yNegative : Bool) (factor : Nat) (scale : Int) : Float :=
    if factor = 0 then ofParts yNegative 0 0
    else if xNegative = yNegative then ofParts xNegative factor scale
    else ofParts xNegative factor scale + y
  match parts x, parts y with
  | .finite xNegative xFactor xScale, .finite yNegative yFactor yScale =>
    let (factor, scale) := truncatedRemainder xFactor xScale yFactor yScale
    settle xNegative yNegative factor scale
  | .finite xNegative xFactor xScale, .infinite yNegative =>
    settle xNegative yNegative xFactor xScale
  | _, _ => 0.0 / 0.0

end GameScript.Decimal
