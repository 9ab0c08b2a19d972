/-!
# Block digests

A digest is 32 bytes. Its text has two lower-case hexadecimal digits a byte, the
high digit first; the reader takes both cases of the letters.
-/

namespace Purse

/-- The hash of a block. -/
abbrev Digest := Vector UInt8 32

/-- The value of a hexadecimal digit of either case. -/
def hexValue? (c : Char) : Option Nat :=
  if c.isDigit then some (c.toNat - '0'.toNat)
  else if 'a' ≤ c ∧ c ≤ 'f' then some (c.toNat - 'a'.toNat + 10)
  else if 'A' ≤ c ∧ c ≤ 'F' then some (c.toNat - 'A'.toNat + 10)
  else none

/-- The sixteen digits are read as what they are written for. -/
theorem hexValue?_digitChar : ∀ k < 16, hexValue? k.digitChar = some k := by
  decide

namespace Digest

/-- The two digits of a byte. -/
def byteChars (b : UInt8) : List Char :=
  [Nat.digitChar (b.toNat / 16), Nat.digitChar (b.toNat % 16)]

/-- Two digits a byte. -/
def chars (d : Digest) : List Char :=
  d.toList.flatMap byteChars

/-- The hexadecimal text. -/
def text (d : Digest) : String :=
  String.ofList d.chars

/-- The bytes that pairs of digits name. -/
def bytes? : List Char → Option (List UInt8)
  | [] => some []
  | high :: low :: rest => do
    let h ← hexValue? high
    let l ← hexValue? low
    let tail ← bytes? rest
    return UInt8.ofNat (h * 16 + l) :: tail
  | [_] => none

/-- Exactly 64 hexadecimal digits. -/
def ofText? (s : String) : Option Digest := do
  let bytes ← bytes? s.toList
  if h : bytes.toArray.size = 32 then some ⟨bytes.toArray, h⟩ else none

/-- The digits of bytes are read back as the bytes. -/
theorem bytes?_flatMap_byteChars (bytes : List UInt8) :
    bytes? (bytes.flatMap byteChars) = some bytes := by
  induction bytes with
  | nil => rfl
  | cons b bytes ih =>
    have hb : b.toNat < 256 := b.toNat_lt
    have hhigh := hexValue?_digitChar (b.toNat / 16) (by omega)
    have hlow := hexValue?_digitChar (b.toNat % 16) (by omega)
    have hvalue : UInt8.ofNat (b.toNat / 16 * 16 + b.toNat % 16) = b := by
      rw [Nat.div_add_mod', UInt8.ofNat_toNat]
    simp only [List.flatMap_cons, byteChars, List.cons_append, List.nil_append, bytes?, hhigh, hlow,
      ih, Option.bind_eq_bind, Option.bind_some, hvalue]
    rfl

theorem ofText?_text (d : Digest) : ofText? (text d) = some d := by
  have hbytes : d.toList.toArray = d.toArray := Array.toArray_toList
  simp [text, chars, ofText?, bytes?_flatMap_byteChars, hbytes]

/-- One byte, 32 times. -/
def filled (b : UInt8) : Digest :=
  Vector.replicate 32 b

end Digest

end Purse
