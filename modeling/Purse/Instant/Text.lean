import Purse.Decimal
import Purse.Instant

/-!
# Instants as RFC 3339 text

An instant is written in UTC with `Z`, as in `2023-11-14T22:13:20Z`; a fraction
has three, six or nine digits and is left out when it is zero; years outside 0 to
9999 carry a sign. A leap second is written as second 60.

The reader takes any offset and moves the instant to UTC. It is lenient where
people are: blanks between the parts, `t` or a blank for `T`, `UTC` for `Z`,
single digits, and fractions longer than nine digits, of which it keeps nine.
-/

namespace Purse.Instant

/-! ## Writing -/

/-- Years 0 to 9999 have four digits; any other a sign and at least four. -/
def yearText (year : Int) : List Char :=
  if 0 ≤ year ∧ year ≤ 9999 then Decimal.padded 4 year.toNat
  else (if year < 0 then '-' else '+') :: Decimal.padded 4 year.natAbs

/-- The fraction of a second, in the fewest groups of three digits. -/
def fractionText (nanos : Nat) : List Char :=
  if nanos = 0 then []
  else if nanos % 1000000 = 0 then '.' :: Decimal.padded 3 (nanos / 1000000)
  else if nanos % 1000 = 0 then '.' :: Decimal.padded 6 (nanos / 1000)
  else '.' :: Decimal.padded 9 nanos

/-- The characters of the text in UTC. -/
def chars (t : Instant) : List Char :=
  let date := t.civil
  let second := t.secondOfDay.toNat
  let leap := if t.nanos < 1000000000 then 0 else 1
  yearText date.year
    ++ '-' :: Decimal.padded 2 date.month.toNat
    ++ '-' :: Decimal.padded 2 date.date.toNat
    ++ 'T' :: Decimal.padded 2 (second / 3600)
    ++ ':' :: Decimal.padded 2 (second / 60 % 60)
    ++ ':' :: Decimal.padded 2 (second % 60 + leap)
    ++ fractionText (t.nanos - leap * 1000000000)
    ++ ['Z']

/-- The text in UTC. -/
def text (t : Instant) : String :=
  String.ofList t.chars

/-! ## Reading -/

/-- The characters that count as blank: the white space of Unicode. -/
def isBlank (c : Char) : Bool :=
  let n := c.toNat
  (9 ≤ n && n ≤ 13) || n = 32 || n = 0x85 || n = 0xa0 || n = 0x1680
    || (0x2000 ≤ n && n ≤ 0x200a) || n = 0x2028 || n = 0x2029 || n = 0x202f
    || n = 0x205f || n = 0x3000

/-- A reader takes characters off the front, or refuses. -/
abbrev Reader (α : Type) := StateT (List Char) Option α

def skipBlanks : Reader Unit :=
  modify (List.dropWhile isBlank)

def expect (c : Char) : Reader Unit := do
  match ← get with
  | d :: rest => if d = c then set rest else failure
  | [] => failure

/-- At least one digit, at most `most` of them. -/
def numeral (most : Nat) : Reader (List Char) := do
  let cs ← get
  let digits := (cs.takeWhile Char.isDigit).take most
  if digits.isEmpty then failure
  set (cs.drop digits.length)
  return digits

/-- A number of at most two digits after blanks, within bounds. -/
def field (low high : Nat) : Reader Nat := do
  skipBlanks
  let n := Decimal.value (← numeral 2)
  if low ≤ n ∧ n ≤ high then return n else failure

/-- A signed year has any number of digits, an unsigned one at most four. -/
def year : Reader Int := do
  skipBlanks
  let cs ← get
  match cs with
  | '-' :: rest => do
    set rest
    return -(Decimal.value (← numeral rest.length) : Int)
  | '+' :: rest => do
    set rest
    return (Decimal.value (← numeral rest.length) : Int)
  | _ => return (Decimal.value (← numeral 4) : Int)

def separator (c : Char) : Reader Unit := do
  skipBlanks
  expect c

/-- A date that the calendar has. -/
def date : Reader Civil := do
  let y ← year
  separator '-'
  let m ← field 1 12
  separator '-'
  let d ← field 1 31
  let c : Civil := ⟨y, m, d⟩
  if c.exists? then return c else failure

/-- Between date and time stands one of three characters. -/
def dateEnd : Reader Unit := do
  match ← get with
  | c :: rest => if c = 'T' ∨ c = 't' ∨ c = ' ' then set rest else failure
  | [] => failure

/-- Nanoseconds after a point; digits beyond the ninth are dropped. -/
def nanoseconds : Reader Nat := do
  let cs ← get
  match cs with
  | '.' :: rest => do
    set rest
    let digits ← numeral 9
    modify (List.dropWhile Char.isDigit)
    return Decimal.value (digits.rightpad 9 '0')
  | _ => return 0

/-- Two digits, the first no greater than `top`. -/
def twoDigits (top : Char) : Reader Nat := do
  match ← get with
  | a :: b :: rest =>
    if a.isDigit ∧ b.isDigit ∧ a ≤ top then do
      set rest
      return Decimal.value [a, b]
    else failure
  | _ => failure

/-- Seconds east of UTC: a sign, hours and minutes. -/
def signedOffset : Reader Int := do
  let cs ← get
  let sign ← match cs with
    | '+' :: rest => do set rest; pure (1 : Int)
    | '-' :: rest => do set rest; pure (-1)
    | '−' :: rest => do set rest; pure (-1)
    | _ => failure
  let hours ← twoDigits '9'
  modify (List.dropWhile (fun c => c = ':' || isBlank c))
  let minutes ← twoDigits '5'
  return sign * (hours * 3600 + minutes * 60 : Nat)

/-- Seconds east of UTC; less than a day. -/
def zone : Reader Int := do
  let cs ← get
  match cs with
  | 'Z' :: rest => do set rest; return 0
  | 'z' :: rest => do set rest; return 0
  | u :: t :: c :: rest =>
    if u.toLower = 'u' ∧ t.toLower = 't' ∧ c.toLower = 'c' then do set rest; return 0
    else do
      let offset ← signedOffset
      if -86400 < offset ∧ offset < 86400 then return offset else failure
  | _ => failure

/-- A whole RFC 3339 text. Both the local and the UTC time must be in range. -/
def reader : Reader Instant := do
  let day ← Civil.day <$> date
  dateEnd
  let hour ← field 0 23
  separator ':'
  let minute ← field 0 59
  separator ':'
  let second ← field 0 60
  let nanos ← nanoseconds
  skipBlanks
  let offset ← zone
  skipBlanks
  unless (← get).isEmpty do failure
  let leap := if second = 60 then 1 else 0
  let clock := hour * 3600 + minute * 60 + (second - leap)
  let nanos := nanos + leap * 1000000000
  let localSeconds := day * 86400 + clock
  let _ ← ofUnix? localSeconds nanos
  ofUnix? (localSeconds - offset) nanos

/-- The instant that a text names. -/
def ofText? (s : String) : Option Instant :=
  reader.run' s.toList

end Purse.Instant
