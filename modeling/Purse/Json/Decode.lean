import Purse.Json

/-!
# From JSON to values

What the types of this library accept. An integer has to be an integer literal
within range. A record is an object, in which fields nobody asks for are skipped,
or an array of exactly its fields; a field asked for may occur once. A choice
without contents is a string, or an object with its name and `null`; one with
contents is an object with its name.
-/

namespace Purse.Json

/-! ## Scalars -/

/-- An integer between two bounds, both included. -/
def intIn? (low high : Int) : Json → Option Int
  | .integer n => if low ≤ n ∧ n ≤ high then some n else none
  | _ => none

/-- A natural number below a bound. -/
def natBelow? (bound : Nat) (j : Json) : Option Nat :=
  (j.intIn? 0 ((bound : Int) - 1)).map Int.toNat

def uint32? (j : Json) : Option UInt32 :=
  (j.natBelow? UInt32.size).map UInt32.ofNat

def uint64? (j : Json) : Option UInt64 :=
  (j.natBelow? UInt64.size).map UInt64.ofNat

/-- A sum of amounts; sums have up to 128 bits. -/
def sum? (j : Json) : Option Nat :=
  j.natBelow? 340282366920938463463374607431768211456

def int32? (j : Json) : Option Int32 :=
  (j.intIn? Int32.minValue.toInt Int32.maxValue.toInt).map Int32.ofInt

def int64? (j : Json) : Option Int64 :=
  (j.intIn? Int64.minValue.toInt Int64.maxValue.toInt).map Int64.ofInt

def bool? : Json → Option Bool
  | .bool b => some b
  | _ => none

def string? : Json → Option String
  | .string s => s
  | _ => none

/-- Null, or a value. -/
def optional? {α : Type} (decode : Json → Option α) : Json → Option (Option α)
  | .null => some none
  | j => (decode j).map some

/-- An array of values. -/
def list? {α : Type} (decode : Json → Option α) : Json → Option (List α)
  | .array items => items.mapM decode
  | _ => none

/-! ## Records -/

/-- The values stored under a key. -/
def valuesOf (key : String) (fields : List (Json.Text × Json)) : List Json :=
  (fields.filter (·.1 = some key)).map (·.2)

/-- The only value under a key; `some none` if there is none. -/
def atMostOne? : List Json → Option (Option Json)
  | [] => some none
  | [value] => some (some value)
  | _ => none

/-- The fields of a record in the order of `names`; a missing one is `none`. -/
def fields? (names : List String) : Json → Option (List (Option Json))
  | .array items => if items.length = names.length then some (items.map some) else none
  | .object fields =>
    if fields.all (·.1.isSome) then names.mapM fun name => atMostOne? (valuesOf name fields)
    else none
  | _ => none

/-! ## Choices -/

/-- The name and the contents of a choice. -/
def choice? : Json → Option (String × Option Json)
  | .string (some name) => some (name, none)
  | .object [(some name, value)] => some (name, some value)
  | _ => none

/-- Whether these are the contents of a choice that has none. -/
def isBare : Option Json → Bool
  | none => true
  | some .null => true
  | some _ => false

/-- A choice without contents. -/
def bareChoice? (j : Json) : Option String := do
  let (name, contents) ← j.choice?
  if isBare contents then some name else none

end Purse.Json
