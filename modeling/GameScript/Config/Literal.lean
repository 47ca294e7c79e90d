import GameScript.Config.Error
import GameScript.Json.Reader
import GameScript.Text.Digit
import GameScript.Text.Units

/-! What the numbers and quoted texts of a game configuration stand for. -/

namespace GameScript.Config

/-! ## Numbers -/

/-- A number without a point is an integer, one with a point is not. Digits of any script count. -/
def numberValue (text : String) : Except Error Json :=
  let (negative, digits) := match text.toList with
    | '-' :: rest => (true, rest)
    | rest => (false, rest)
  let whole := digits.takeWhile (· ≠ '.')
  match digits.drop whole.length with
  | _ :: fraction => .ok (.number (Decimal.ofFraction negative whole fraction))
  | [] =>
    if Json.maxDigits < whole.length then .error .tooManyDigits
    else
      let n : Int := Text.digitsValue whole
      .ok (.int (if negative then -n else n))

/-! ## Quoted texts -/

/-- The character that a one-letter escape stands for. -/
def letterEscape? (c : Char) : Option Nat :=
  match c with
  | '\\' => some 92
  | '\'' => some 39
  | '"' => some 34
  | 'a' => some 7
  | 'b' => some 8
  | 'f' => some 12
  | 'n' => some 10
  | 'r' => some 13
  | 't' => some 9
  | 'v' => some 11
  | _ => none

/-- The value of an octal digit. -/
def octalDigit? (c : Char) : Option Nat :=
  if '0' ≤ c && c ≤ '7' then some (c.toNat - '0'.toNat) else none

/-- How many hexadecimal digits an escape takes, by its letter. -/
def hexWidth? (c : Char) : Option Nat :=
  match c with
  | 'x' => some 2
  | 'u' => some 4
  | 'U' => some 8
  | _ => none

/-- What an escape after its backslash stands for: codes, and how many characters it takes. A letter
without a meaning stands for itself with the backslash, and a line end vanishes. `none` if the
escape is not complete.

There is no table of the names of characters here. So no name in braces after a capital N counts as
one, although some do name a character. -/
def escape (c : Char) (rest : List Char) : Option (List Nat × Nat) :=
  match letterEscape? c, octalDigit? c, hexWidth? c with
  | some code, _, _ => some ([code], 1)
  | _, some first, _ =>
    let more := (rest.take 2).takeWhile fun d => (octalDigit? d).isSome
    let code := more.foldl (fun n d => 8 * n + (octalDigit? d).getD 0) first
    some ([code], more.length + 1)
  | _, _, some width =>
    let digits := rest.take width
    match Text.hexValue? digits with
    | some code => if digits.length = width && code ≤ 0x10FFFF then some ([code], width + 1) else none
    | none => none
  | none, none, none =>
    if c = 'N' then none
    else if c = '\r' then some ([], 1)
    else some ([92, c.toNat], 1)

/-- The codes of a text between quotes, with its escapes replaced. A bare carriage return cannot
stand there. `skip` characters belong to the escape before. -/
def codes (skip : Nat) : List Char → Option (List Nat)
  | [] => some []
  | c :: rest =>
    match skip with
    | skip + 1 => codes skip rest
    | 0 =>
      if c = '\r' then none
      else if c = '\\' then
        match rest with
        | [] => none
        | letter :: after => do
          let (first, length) ← escape letter after
          return first ++ (← codes length rest)
      else (codes 0 rest).map (c.toNat :: ·)

/-- The text that a text in quotes stands for. The character with the code zero cannot stand in one,
whatever else is wrong with it. -/
def quotedValue (text : String) : Except Error String :=
  let inner := (text.toList.drop 1).dropLast
  if inner.contains (Char.ofNat 0) then .error .badCharacter
  else
    match codes 0 inner with
    | some codes => .ok (String.ofList (Text.ofCodes codes))
    | none => .error .badText

end GameScript.Config
