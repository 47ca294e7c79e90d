import GameScript.Store

/-! The text and the equality of values.

Both walk down arrays, which may contain themselves, so both take how many steps may still be opened
and give nothing if that is not enough. A value takes three: one for itself, one for going through
its elements and one for the element at hand. -/

namespace GameScript.Store

/-- The text that `print` shows for a value. -/
def text? (store : Store) : Nat → Value → Option String
  | room + 3, value =>
    match value with
    | .nil => some "nil"
    | .bool value => some (if value then "true" else "false")
    | .number value => some (Decimal.text value)
    | .string value => some value
    | .array place => do
      let parts ← (store.elements place).toList.mapM (store.text? room)
      return "[" ++ String.intercalate ", " parts ++ "]"
    | .function place => some ("<fn " ++ (store.closures[place]?.map (·.name.text)).getD "" ++ ">")
    | .native which => some ("<native fn " ++ which.name ++ ">")
    | .datum value => some value.display
  | _, _ => none

/-- The text that tells values apart for a reader, with texts in quotes and numbers always with a
point. Native functions have none. -/
def listing? (store : Store) : Nat → Value → Option String
  | room + 3, value =>
    match value with
    | .nil => some "None"
    | .bool value => some (if value then "True" else "False")
    | .number value => some (Decimal.Notation.plain.write value)
    | .string value => some (Text.quoted value)
    | .array place => do
      let parts ← (store.elements place).toList.mapM (store.listing? room)
      return "Array([" ++ String.intercalate ", " parts ++ "])"
    | .function place => do
      let closure ← store.closures[place]?
      return "<fn " ++ closure.name.text ++ "/" ++
        Decimal.integerText closure.params.length ++ ">"
    | .native _ => none
    | .datum value => some value.display
  | _, _ => none

/-- Are the values of two lists equal one for one? The first difference decides. -/
def allEqual? (equal? : Value → Value → Option Bool) : List Value → List Value → Option Bool
  | x :: xs, y :: ys => do
    if ← equal? x y then allEqual? equal? xs ys else return false
  | _, _ => some true

/-- Are two values equal? Values of different tags never are; functions are equal if they are the
same function, and arrays if they are the same array or have equal elements. -/
def equal? (store : Store) : Nat → Value → Value → Option Bool
  | room + 3, a, b =>
    match a, b with
    | .nil, .nil => some true
    | .bool a, .bool b => some (a = b)
    | .number a, .number b => some (a == b)
    | .string a, .string b => some (a = b)
    | .array a, .array b =>
      if a = b then some true
      else
        let xs := (store.elements a).toList
        let ys := (store.elements b).toList
        if xs.length ≠ ys.length then some false else allEqual? (store.equal? room) xs ys
    | .function a, .function b => some (a = b)
    | .native a, .native b => some (a = b)
    | .datum a, .datum b => some ((Value.datum a).tag = (Value.datum b).tag && a.same b)
    | _, _ => some false
  | _, _, _ => none

end GameScript.Store
