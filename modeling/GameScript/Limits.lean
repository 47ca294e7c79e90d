/-! How deeply things may nest before the library gives up on them. -/

namespace GameScript

/-- Bounds on nesting. Each is counted in steps of the recursion that it bounds. -/
structure Limits where
  /-- Steps of grammar rules that may be open at once while parsing. -/
  parsing : Nat
  /-- Steps that may be open at once while a tree is printed. -/
  printing : Nat
  /-- Steps that may be open at once while a tree is written as data or read from it. -/
  encoding : Nat
  /-- Arrays and objects that may be open at once in a text that is read as data. -/
  reading : Nat
  /-- Evaluation steps that may be open at once while a program runs. -/
  running : Nat
  /-- Lists that may be open at once in a value of a game configuration. -/
  listing : Nat
  deriving Repr, DecidableEq

/-- The bounds that programs are run with: about sixty nested parentheses in a source, some hundred and
fifty open calls, and arrays three hundred deep. -/
def Limits.standard : Limits where
  parsing := 993
  printing := 993
  encoding := 993
  reading := 990
  running := 994
  listing := 490

end GameScript
