import Purse.Decimal
import Purse.Digest
import Purse.Json

/-!
# JSON tokens

The text is cut into brackets, commas, colons and scalars by one pass over its
characters: `Scan.step` takes the next character, `Scan.finish` ends the last
token. A number or a word ends where a character comes that cannot continue it.
-/

namespace Purse.Json

/-- A token; every scalar already carries its value. -/
inductive Token where
  | openArray
  | closeArray
  | openObject
  | closeObject
  | comma
  | colon
  | scalar (value : Json)

/-! ## Numbers -/

/-- How far a number has been read. -/
inductive NumberPart where
  | sign
  | zero
  | whole
  | point
  | fraction
  | letter
  | exponentSign
  | exponent
  deriving DecidableEq, Repr

/-- A number under way. Its digits before and after the point stand in reverse. -/
structure Number where
  part : NumberPart
  negative : Bool := false
  whole : List Char := []
  fraction : List Char := []
  exponentNegative : Bool := false
  exponent : Nat := 0
  deriving DecidableEq, Repr

namespace Number

/-- The number that starts with a character, if one does. -/
def start? (c : Char) : Option Number :=
  if c = '-' then some { part := .sign, negative := true }
  else if c = '0' then some { part := .zero, whole := [c] }
  else if c.isDigit then some { part := .whole, whole := [c] }
  else none

/-- One more digit before the point. -/
def addWhole (n : Number) (c : Char) : Number :=
  { n with part := .whole, whole := c :: n.whole }

/-- One more digit after the point. -/
def addFraction (n : Number) (c : Char) : Number :=
  { n with part := .fraction, fraction := c :: n.fraction }

/-- One more digit of the exponent. -/
def addExponent (n : Number) (c : Char) : Number :=
  { n with part := .exponent, exponent := n.exponent * 10 + (c.toNat - '0'.toNat) }

/-- What a character does to a number: continue it, end it, or spoil it. -/
inductive Next where
  | more (number : Number)
  | ends
  | wrong

/-- A number continues with digits, one point and one exponent. A zero is the
only digit before the point if it comes first. -/
def next (n : Number) (c : Char) : Next :=
  let isExponentLetter := c = 'e' || c = 'E'
  match n.part with
  | .sign =>
    if c = '0' then .more { n with part := .zero, whole := [c] }
    else if c.isDigit then .more (n.addWhole c)
    else .wrong
  | .zero =>
    if c = '.' then .more { n with part := .point }
    else if isExponentLetter then .more { n with part := .letter }
    else if c.isDigit then .wrong
    else .ends
  | .whole =>
    if c.isDigit then .more (n.addWhole c)
    else if c = '.' then .more { n with part := .point }
    else if isExponentLetter then .more { n with part := .letter }
    else .ends
  | .point => if c.isDigit then .more (n.addFraction c) else .wrong
  | .fraction =>
    if c.isDigit then .more (n.addFraction c)
    else if isExponentLetter then .more { n with part := .letter }
    else .ends
  | .letter =>
    if c = '-' then .more { n with part := .exponentSign, exponentNegative := true }
    else if c = '+' then .more { n with part := .exponentSign }
    else if c.isDigit then .more (n.addExponent c)
    else .wrong
  | .exponentSign => if c.isDigit then .more (n.addExponent c) else .wrong
  | .exponent => if c.isDigit then .more (n.addExponent c) else .ends

/-- Whether a double can take the number. -/
def inRange (n : Number) : Bool :=
  Double.inRange n.whole.reverse n.fraction.reverse
    (if n.exponentNegative then -(n.exponent : Int) else n.exponent)

/-- The value, if the number may end here. -/
def value? (n : Number) : Option Json :=
  match n.part with
  | .zero => some (if n.negative then .real true else .integer 0)
  | .whole =>
    let digits : Int := Decimal.value n.whole.reverse
    some (.integer (if n.negative then -digits else digits))
  | .fraction | .exponent => some (.real n.inRange)
  | _ => none

end Number

/-! ## Strings -/

/-- A string under way, its characters in reverse. -/
structure Quote where
  chars : List Char := []
  /-- The first half of a surrogate pair, just read. -/
  half : Option Nat := none
  /-- No half of a pair stands alone so far. -/
  whole : Bool := true
  deriving DecidableEq, Repr

namespace Quote

/-- Adds a character; a half before it stays alone. -/
def push (q : Quote) (c : Char) : Quote :=
  { chars := c :: q.chars, half := none, whole := q.whole && q.half.isNone }

/-- Adds an escaped UTF-16 unit. Two halves in the right order are one character. -/
def pushUnit (q : Quote) (unit : Nat) : Quote :=
  if 0xdc00 ≤ unit ∧ unit < 0xe000 then
    match q.half with
    | some high =>
      { q with
        chars := Char.ofNat (0x10000 + (high - 0xd800) * 0x400 + (unit - 0xdc00)) :: q.chars
        half := none }
    | none => { q with whole := false }
  else if 0xd800 ≤ unit ∧ unit < 0xdc00 then
    { q with half := some unit, whole := q.whole && q.half.isNone }
  else q.push (Char.ofNat unit)

/-- The value of the finished string. -/
def text (q : Quote) : Json.Text :=
  if q.whole ∧ q.half = none then some (String.ofList q.chars.reverse) else none

end Quote

/-- The character that a one-letter escape names. -/
def shortEscape? (c : Char) : Option Char :=
  if c = '"' ∨ c = '\\' ∨ c = '/' then some c
  else if c = 'b' then some '\x08'
  else if c = 'f' then some '\x0c'
  else if c = 'n' then some '\n'
  else if c = 'r' then some '\r'
  else if c = 't' then some '\t'
  else none

/-! ## Scanning -/

/-- What the characters read last belong to. -/
inductive Mode where
  | between
  | number (number : Number)
  /-- The letters of a word, in reverse. -/
  | word (letters : List Char)
  | quote (quote : Quote)
  /-- After a backslash. -/
  | escape (quote : Quote)
  /-- After `\u` and some of its four digits. -/
  | unit (quote : Quote) (missing : Nat) (value : Nat)

/-- A scan: the tokens so far, in reverse, and what is under way. -/
structure Scan where
  tokens : List Token := []
  mode : Mode := .between

namespace Scan

def isBlank (c : Char) : Bool :=
  c = ' ' || c = '\n' || c = '\t' || c = '\r'

def emit (s : Scan) (t : Token) : Scan :=
  { tokens := t :: s.tokens, mode := .between }

/-- The value of a word. -/
def wordValue? (letters : List Char) : Option Json :=
  if letters = ['l', 'l', 'u', 'n'] then some .null
  else if letters = ['e', 'u', 'r', 't'] then some (.bool true)
  else if letters = ['e', 's', 'l', 'a', 'f'] then some (.bool false)
  else none

/-- A character between two tokens. -/
def start (s : Scan) (c : Char) : Option Scan :=
  if isBlank c then some { s with mode := .between }
  else if c = '[' then some (s.emit .openArray)
  else if c = ']' then some (s.emit .closeArray)
  else if c = '{' then some (s.emit .openObject)
  else if c = '}' then some (s.emit .closeObject)
  else if c = ',' then some (s.emit .comma)
  else if c = ':' then some (s.emit .colon)
  else if c = '"' then some { s with mode := .quote {} }
  else if c.isLower then some { s with mode := .word [c] }
  else (Number.start? c).map fun n => { s with mode := .number n }

/-- The next character. -/
def step (s : Scan) (c : Char) : Option Scan :=
  match s.mode with
  | .between => s.start c
  | .number n =>
    match n.next c with
    | .more n => some { s with mode := .number n }
    | .ends => do (s.emit (.scalar (← n.value?))).start c
    | .wrong => none
  | .word letters =>
    if c.isLower then some { s with mode := .word (c :: letters) }
    else do (s.emit (.scalar (← wordValue? letters))).start c
  | .quote q =>
    if c = '"' then some (s.emit (.scalar (.string q.text)))
    else if c = '\\' then some { s with mode := .escape q }
    else if c.toNat < 32 then none
    else some { s with mode := .quote (q.push c) }
  | .escape q =>
    if c = 'u' then some { s with mode := .unit q 3 0 }
    else (shortEscape? c).map fun d => { s with mode := .quote (q.push d) }
  | .unit q missing value => do
    let value := value * 16 + (← hexValue? c)
    match missing with
    | 0 => return { s with mode := .quote (q.pushUnit value) }
    | missing + 1 => return { s with mode := .unit q missing value }

/-- The tokens of the whole text, once its characters are used up. -/
def finish (s : Scan) : Option (List Token) :=
  match s.mode with
  | .between => some s.tokens.reverse
  | .number n => do return (s.emit (.scalar (← n.value?))).tokens.reverse
  | .word letters => do return (s.emit (.scalar (← wordValue? letters))).tokens.reverse
  | _ => none

end Scan

/-- The tokens of a text. -/
def tokens? (cs : List Char) : Option (List Token) := do
  (← cs.foldlM Scan.step {}).finish

end Purse.Json
