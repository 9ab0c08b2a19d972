import Purse.Json

/-!
# Compact JSON text

Values are written without blanks, fields in their order. In strings, quote and
backslash are escaped, control characters have their short escape or `\u00xx`,
and everything else stands for itself.
-/

namespace Purse.Json

/-- Four lower-case hexadecimal digits after `\u`. -/
def unicodeEscape (n : Nat) : List Char :=
  ['\\', 'u', Nat.digitChar (n / 4096 % 16), Nat.digitChar (n / 256 % 16),
    Nat.digitChar (n / 16 % 16), Nat.digitChar (n % 16)]

/-- A character as it stands inside a string. -/
def charText (c : Char) : List Char :=
  if c = '"' then ['\\', '"']
  else if c = '\\' then ['\\', '\\']
  else if c = '\x08' then ['\\', 'b']
  else if c = '\x0c' then ['\\', 'f']
  else if c = '\n' then ['\\', 'n']
  else if c = '\r' then ['\\', 'r']
  else if c = '\t' then ['\\', 't']
  else if c.toNat < 32 then unicodeEscape c.toNat
  else [c]

/-- A string between quotes. One without value is written as a lone surrogate. -/
def quoted : Json.Text → List Char
  | some s => '"' :: (s.toList.flatMap charText ++ ['"'])
  | none => '"' :: (unicodeEscape 0xd800 ++ ['"'])

/-- A sign if negative, then the digits. -/
def integerText (n : Int) : List Char :=
  if n < 0 then '-' :: Nat.toDigits 10 n.natAbs else Nat.toDigits 10 n.natAbs

mutual

/-- The characters of a value's compact text. -/
def chars : Json → List Char
  | .null => ['n', 'u', 'l', 'l']
  | .bool true => ['t', 'r', 'u', 'e']
  | .bool false => ['f', 'a', 'l', 's', 'e']
  | .integer n => integerText n
  | .real true => ['-', '0']
  | .real false => ['1', 'e', '9', '9', '9']
  | .string s => quoted s
  | .array [] => ['[', ']']
  | .array (item :: rest) => '[' :: (chars item ++ itemsTail rest)
  | .object [] => ['{', '}']
  | .object ((key, value) :: rest) => '{' :: (quoted key ++ ':' :: (chars value ++ fieldsTail rest))

/-- The items after the first, and the closing bracket. -/
def itemsTail : List Json → List Char
  | [] => [']']
  | item :: rest => ',' :: (chars item ++ itemsTail rest)

/-- The fields after the first, and the closing brace. -/
def fieldsTail : List (Json.Text × Json) → List Char
  | [] => ['}']
  | (key, value) :: rest => ',' :: (quoted key ++ ':' :: (chars value ++ fieldsTail rest))

end

/-- The compact text of a value. -/
def render (j : Json) : String :=
  String.ofList j.chars

end Purse.Json
