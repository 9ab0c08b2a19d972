import Purse.Json.Token

/-!
# Reading JSON text

A stack keeps the arrays and objects that are still open; `Reading.step` takes
the next token. The reader is strict: exactly one value, no comma too many, no
comments.
-/

namespace Purse.Json

/-- An array or object that is still open, its contents in reverse. -/
inductive Frame where
  | array (items : List Json)
  /-- The value of `key` is still to come. -/
  | object (fields : List (Json.Text × Json)) (key : Json.Text)

/-- What has been read, and so what may follow. -/
inductive Reading where
  /-- A value has to follow. -/
  | value (stack : List Frame)
  /-- An array has just been opened. -/
  | firstItem (stack : List Frame)
  /-- An object has just been opened. -/
  | firstKey (stack : List Frame)
  /-- A key has to follow. -/
  | key (stack : List Frame) (fields : List (Json.Text × Json))
  | colon (stack : List Frame) (fields : List (Json.Text × Json)) (key : Json.Text)
  /-- A value is complete. -/
  | after (stack : List Frame) (value : Json)

namespace Reading

/-- A token where a value has to start. -/
def startValue (stack : List Frame) : Token → Option Reading
  | .scalar json => some (.after stack json)
  | .openArray => some (.firstItem stack)
  | .openObject => some (.firstKey stack)
  | _ => none

/-- The next token. -/
def step : Reading → Token → Option Reading
  | .value stack, token => startValue stack token
  | .firstItem stack, .closeArray => some (.after stack (.array []))
  | .firstItem stack, token => startValue (.array [] :: stack) token
  | .firstKey stack, .closeObject => some (.after stack (.object []))
  | .firstKey stack, .scalar (.string name) => some (.colon stack [] name)
  | .key stack fields, .scalar (.string name) => some (.colon stack fields name)
  | .colon stack fields name, .colon => some (.value (.object fields name :: stack))
  | .after (.array items :: stack) json, .comma => some (.value (.array (json :: items) :: stack))
  | .after (.array items :: stack) json, .closeArray =>
    some (.after stack (.array (json :: items).reverse))
  | .after (.object fields name :: stack) json, .comma =>
    some (.key stack ((name, json) :: fields))
  | .after (.object fields name :: stack) json, .closeObject =>
    some (.after stack (.object ((name, json) :: fields).reverse))
  | _, _ => none

/-- The value, if exactly one has been read. -/
def finish : Reading → Option Json
  | .after [] json => some json
  | _ => none

end Reading

/-- The value that a list of tokens spells. -/
def ofTokens? (ts : List Token) : Option Json := do
  (← ts.foldlM Reading.step (.value [])).finish

/-- The value that a text spells. -/
def parse? (s : String) : Option Json := do
  ofTokens? (← tokens? s.toList)

end Purse.Json
