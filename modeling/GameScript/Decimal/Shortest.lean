import GameScript.Decimal.Binary

/-! The fewest decimal digits that identify a binary number.

The reals that round to `factor * 2 ^ scale` form an interval, from halfway to the number below to
halfway to the number above; its ends belong to it if the factor is even. For one digit, two digits
and so on, the two neighbours of the number on that decimal grid are tried. The first grid with a
neighbour in the interval gives the digits, and of two neighbours the nearer one is taken. -/

namespace GameScript.Decimal

/-- `digits * 10 ^ exponent`, without a sign. -/
structure Digits where
  digits : Nat
  exponent : Int
  deriving Repr, DecidableEq

/-- How many decimal digits a natural number has. -/
def width (n : Nat) : Nat := (Nat.toDigits 10 n).length

/-- Half the gap to the number below is narrower just above a power of two. -/
def narrowBelow (factor : Nat) (scale : Int) : Bool := factor = leadingOne && -1074 < scale

/-- Does `candidate * 10 ^ exponent` round to `factor * 2 ^ scale`? Both sides are brought to whole
numbers, in quarters of the unit `2 ^ scale`. -/
def readsBack (factor : Nat) (scale : Int) (candidate : Nat) (exponent : Int) : Bool :=
  let value := 4 * candidate * power 10 exponent * power 2 (-scale)
  let unit := power 2 scale * power 10 (-exponent)
  let lower := (4 * factor - if narrowBelow factor scale then 1 else 2) * unit
  let upper := (4 * factor + 2) * unit
  if factor % 2 = 0 then lower ≤ value && value ≤ upper else lower < value && value < upper

/-- The decimal exponent of the leading digit of `factor * 2 ^ scale`, for a factor that is not
zero. The number is first multiplied by a power of ten that makes every such number at least one. -/
def leading (factor : Nat) (scale : Int) : Int :=
  let lift : Nat := if 0 ≤ scale then 0 else 400
  (width (factor * power 10 lift * power 2 scale / power 2 (-scale)) : Int) - 1 - lift

/-- The better neighbour on the grid `10 ^ exponent`, if one rounds to the number. -/
def onGrid (factor : Nat) (scale exponent : Int) : Option Digits :=
  let numerator := factor * power 2 scale * power 10 (-exponent)
  let denominator := power 2 (-scale) * power 10 exponent
  let below := numerator / denominator
  let rest := numerator % denominator
  match readsBack factor scale below exponent, readsBack factor scale (below + 1) exponent with
  | true, true =>
    let up := denominator < 2 * rest || (denominator = 2 * rest && below % 2 = 1)
    some ⟨if up then below + 1 else below, exponent⟩
  | true, false => some ⟨below, exponent⟩
  | false, true => some ⟨below + 1, exponent⟩
  | false, false => none

/-- The exact decimal value, with as many digits as it takes. -/
def exact (factor : Nat) (scale : Int) : Digits :=
  if 0 ≤ scale then ⟨factor * power 2 scale, 0⟩ else ⟨factor * power 5 (-scale), scale⟩

/-- Moves trailing zeros into the exponent. No number here has more digits than `fuel`. -/
def dropZeros : Nat → Digits → Digits
  | 0, d => d
  | fuel + 1, d =>
    if d.digits % 10 = 0 && d.digits ≠ 0 then dropZeros fuel ⟨d.digits / 10, d.exponent + 1⟩ else d

/-- The fewest digits that identify `factor * 2 ^ scale`. Seventeen always do. -/
def shortest (factor : Nat) (scale : Int) : Digits :=
  if factor = 0 then ⟨0, 0⟩
  else
    let top := leading factor scale
    let found := (List.range 17).findSome? fun (n : Nat) => onGrid factor scale (top - n)
    dropZeros 18 (found.getD (exact factor scale))

end GameScript.Decimal
