/-! Characters named by 16-bit units, and hexadecimal digits. -/

namespace GameScript.Text

/-- The value of a hexadecimal digit. -/
def hexDigit? (c : Char) : Option Nat :=
  if '0' ≤ c && c ≤ '9' then some (c.toNat - '0'.toNat)
  else if 'a' ≤ c && c ≤ 'f' then some (c.toNat - 'a'.toNat + 10)
  else if 'A' ≤ c && c ≤ 'F' then some (c.toNat - 'A'.toNat + 10)
  else none

/-- The value of a run of hexadecimal digits. -/
def hexValue? (cs : List Char) : Option Nat :=
  cs.foldl (fun acc c => do return 16 * (← acc) + (← hexDigit? c)) (some 0)

def isHighUnit (n : Nat) : Bool := 0xD800 ≤ n && n < 0xDC00

def isLowUnit (n : Nat) : Bool := 0xDC00 ≤ n && n < 0xE000

/-- The character of a pair of units. -/
def pairChar (high low : Nat) : Char :=
  Char.ofNat (0x10000 + (high - 0xD800) * 0x400 + (low - 0xDC00))

/-- The character of a code on its own. Half a pair is no character and is replaced. -/
def codeChar (code : Nat) : Char :=
  if isHighUnit code || isLowUnit code then Char.ofNat 0xFFFD else Char.ofNat code

/-- The characters of a run of codes. A high unit with a low one after it names one character.

Texts here are made of characters, so half of a pair on its own is not represented: it becomes the
replacement character, and two halves side by side are always joined, also where a text could hold
them apart. -/
def ofCodes : List Nat → List Char
  | [] => []
  | [code] => [codeChar code]
  | high :: low :: rest =>
    if isHighUnit high && isLowUnit low then pairChar high low :: ofCodes rest
    else codeChar high :: ofCodes (low :: rest)

end GameScript.Text
