import OpeningHours.Text.Printable

/-!
# Quoted texts

Messages quote the text they speak of. The quotes are single, or double if the text holds a
single quote and no double one. Inside, the backslash and the quote in use are escaped by a
backslash, the tab and the two line ends have short forms, and every other character that is
not printable is written by its code point in two, four or eight hexadecimal digits.
-/

namespace OpeningHours.Text

/-- A code point in `width` hexadecimal digits, the lower ones if it has more. -/
def hexadecimal : Nat → Nat → List Char
  | 0, _ => []
  | width + 1, n => hexadecimal width (n / 16) ++ [Nat.digitChar (n % 16)]

/-- The two, four or eight digit form of a code point. -/
def escapedCodePoint (n : Nat) : List Char :=
  if n < 0x100 then '\\' :: 'x' :: hexadecimal 2 n
  else if n < 0x10000 then '\\' :: 'u' :: hexadecimal 4 n
  else '\\' :: 'U' :: hexadecimal 8 n

/-- The written form of one character between quotes `q`. -/
def escaped (q c : Char) : List Char :=
  if c = '\\' ∨ c = q then ['\\', c]
  else if c = '\n' then ['\\', 'n']
  else if c = '\r' then ['\\', 'r']
  else if c = '\t' then ['\\', 't']
  else if isPrintable c then [c]
  else escapedCodePoint c.toNat

/-- The quote that needs no escape, single if both or neither would. -/
def quoteMark (cs : List Char) : Char :=
  if '\'' ∈ cs ∧ '"' ∉ cs then '"' else '\''

/-- A text between quotes. -/
def quoted (s : String) : String :=
  let q := quoteMark s.toList
  String.ofList (q :: s.toList.flatMap (escaped q) ++ [q])

end OpeningHours.Text
