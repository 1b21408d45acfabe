/-!
# Blanks

The characters that separate words: the tabs and line ends of ASCII, the four separators
below the space, the space itself, and the spaces and line ends of Unicode. A text is
cut into its words at blanks, and stripped of the blanks around it.
-/

namespace OpeningHours.Text

/-- The blanks, as inclusive ranges of code points. -/
def blankRanges : List (Nat × Nat) :=
  [(0x09, 0x0D), (0x1C, 0x20), (0x85, 0x85), (0xA0, 0xA0), (0x1680, 0x1680), (0x2000, 0x200A),
   (0x2028, 0x2029), (0x202F, 0x202F), (0x205F, 0x205F), (0x3000, 0x3000)]

/-- Membership of a code point in a list of inclusive ranges. -/
def inRanges (rs : List (Nat × Nat)) (n : Nat) : Bool :=
  rs.any fun r => decide (r.1 ≤ n) && decide (n ≤ r.2)

/-- Whether a character separates words. -/
def isBlank (c : Char) : Bool :=
  inRanges blankRanges c.toNat

/-- A text without the blanks at its two ends. -/
def strip (cs : List Char) : List Char :=
  ((cs.dropWhile isBlank).reverse.dropWhile isBlank).reverse

/-- The words of a text: its longest stretches without a blank. -/
def words (cs : List Char) : List (List Char) :=
  (cs.splitOnP isBlank).filter (!·.isEmpty)

theorem dropWhile_isBlank_eq_nil_iff {cs : List Char} :
    cs.dropWhile isBlank = [] ↔ ∀ c ∈ cs, isBlank c = true := by
  induction cs with
  | nil => simp
  | cons c cs ih =>
    by_cases h : isBlank c = true
    · simp [h, ih]
    · simp [h]

/-- Nothing is left of a text exactly when it holds blanks only. -/
theorem strip_eq_nil_iff {cs : List Char} : strip cs = [] ↔ ∀ c ∈ cs, isBlank c = true := by
  induction cs with
  | nil => simp [strip]
  | cons c cs ih =>
    by_cases h : isBlank c = true
    · simpa [strip, List.dropWhile_cons, h] using ih
    · have hkept : (c :: cs).dropWhile isBlank = c :: cs := List.dropWhile_cons_of_neg h
      rw [strip, hkept, List.reverse_eq_nil_iff, dropWhile_isBlank_eq_nil_iff]
      simp only [List.mem_reverse]

end OpeningHours.Text
