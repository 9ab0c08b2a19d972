import Purse.Double.Reading

/-!
# JSON values

Only integers matter in the documents of this library, so any other number is
kept as the bare fact whether a double could take it. A string may escape half of
a surrogate pair; then it has no value, and only a place that is skipped may hold
it. The fields of an object keep their order and their repetitions.
-/

namespace Purse

/-- A string literal's value, or `none` when it escapes half a character. -/
abbrev Json.Text := Option String

/-- A JSON value. -/
inductive Json where
  | null
  | bool (value : Bool)
  /-- A number without fraction and exponent, other than `-0`. -/
  | integer (value : Int)
  /-- Any other number, and whether it is within the range of doubles. -/
  | real (inRange : Bool)
  | string (value : Json.Text)
  | array (items : List Json)
  | object (fields : List (Json.Text × Json))
  deriving Inhabited

namespace Json

/-- A string. -/
def text (s : String) : Json :=
  .string (some s)

/-- A natural number. -/
def nat (n : Nat) : Json :=
  .integer n

/-- An object with well-formed keys. -/
def record (fields : List (String × Json)) : Json :=
  .object (fields.map fun (key, value) => (some key, value))

mutual

/-- Whether a value could be kept although nobody asked for it: at most `depth`
levels of nesting, every string whole and every number within range. -/
def isSound (depth : Nat) : Json → Bool
  | .null => true
  | .bool _ => true
  | .integer n => Double.inRange (Nat.toDigits 10 n.natAbs) [] 0
  | .real inRange => inRange
  | .string value => value.isSome
  | .array items =>
    match depth with
    | 0 => false
    | depth + 1 => areSound depth items
  | .object fields =>
    match depth with
    | 0 => false
    | depth + 1 => haveSound depth fields

/-- `isSound` of every item. -/
def areSound (depth : Nat) : List Json → Bool
  | [] => true
  | item :: rest => isSound depth item && areSound depth rest

/-- `isSound` of every key and field. -/
def haveSound (depth : Nat) : List (Json.Text × Json) → Bool
  | [] => true
  | (key, value) :: rest => key.isSome && isSound depth value && haveSound depth rest

end

end Json

end Purse
