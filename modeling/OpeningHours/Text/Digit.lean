/-!
# Decimal digits

Two notions of digit. `decimal?` knows the decimal digits of every script of Unicode 14: each
script has ten of them in a row, from its zero. `natural?` reads a number in ASCII digits,
without sign or separator. A number that comes in with a text, or goes out into one, has at most
`maxDigits` digits: `numeral?` reads no longer one, and only the numbers that are `isWritable` can
be written.
-/

namespace OpeningHours.Text

/-- The code points of the zeros of all scripts. -/
def zeros : List Nat :=
  [0x30, 0x660, 0x6F0, 0x7C0, 0x966, 0x9E6, 0xA66, 0xAE6, 0xB66, 0xBE6, 0xC66, 0xCE6, 0xD66, 0xDE6,
   0xE50, 0xED0, 0xF20, 0x1040, 0x1090, 0x17E0, 0x1810, 0x1946, 0x19D0, 0x1A80, 0x1A90, 0x1B50,
   0x1BB0, 0x1C40, 0x1C50, 0xA620, 0xA8D0, 0xA900, 0xA9D0, 0xA9F0, 0xAA50, 0xABF0, 0xFF10, 0x104A0,
   0x10D30, 0x11066, 0x110F0, 0x11136, 0x111D0, 0x112F0, 0x11450, 0x114D0, 0x11650, 0x116C0,
   0x11730, 0x118E0, 0x11950, 0x11C50, 0x11D50, 0x11DA0, 0x16A60, 0x16AC0, 0x16B50, 0x1D7CE,
   0x1D7D8, 0x1D7E2, 0x1D7EC, 0x1D7F6, 0x1E140, 0x1E2F0, 0x1E950, 0x1FBF0]

/-- The value of a decimal digit of any script. -/
def decimal? (c : Char) : Option Nat :=
  (zeros.find? fun z => decide (z ≤ c.toNat) && decide (c.toNat < z + 10)).map (c.toNat - ·)

/-- Whether a character is a decimal digit of some script. -/
def isDecimal (c : Char) : Bool :=
  (decimal? c).isSome

/-- The number that a list of decimal digits writes, the first digit weighing most. -/
def decimalValue (cs : List Char) : Nat :=
  cs.foldl (fun n c => 10 * n + (decimal? c).getD 0) 0

/-- The number written in ASCII digits, if the text is nothing else. -/
def natural? (cs : List Char) : Option Nat :=
  if !cs.isEmpty && cs.all Char.isDigit then some (decimalValue cs) else none

theorem natural?_eq_some_iff {cs : List Char} {n : Nat} :
    natural? cs = some n ↔ cs ≠ [] ∧ (∀ c ∈ cs, c.isDigit = true) ∧ decimalValue cs = n := by
  simp [natural?, and_assoc]

/-- The most decimal digits that a number can have where it is read or written. -/
def maxDigits : Nat := 4300

/-- The number written in ASCII digits, if there are not too many of them. -/
def numeral? (cs : List Char) : Option Nat :=
  if cs.length ≤ maxDigits then natural? cs else none

/-- Whether a text is a number in ASCII digits that is too long to be read. -/
def isOverlong (cs : List Char) : Bool :=
  cs.all Char.isDigit && decide (maxDigits < cs.length)

/-- Whether a number is short enough to be written. -/
def isWritable (v : Int) : Bool :=
  decide ((Nat.toDigits 10 v.natAbs).length ≤ maxDigits)

theorem numeral?_eq_some_iff {cs : List Char} {n : Nat} :
    numeral? cs = some n ↔ cs.length ≤ maxDigits ∧ natural? cs = some n := by
  simp [numeral?]

theorem isOverlong_iff {cs : List Char} :
    isOverlong cs = true ↔ (∀ c ∈ cs, c.isDigit = true) ∧ maxDigits < cs.length := by
  simp [isOverlong]

end OpeningHours.Text
