/-!
# Blank characters

A character is blank if it has the Unicode property `White_Space`; `trim` takes the blank
characters off both ends of a text.

* `isBlank_of_isWhitespace` : every blank ASCII character that core knows is blank here.
-/

namespace Keyset.Text

/-- The ranges of code points with the Unicode property `White_Space`. -/
def blankRanges : List (Nat × Nat) :=
  [(0x9, 0xD), (0x20, 0x20), (0x85, 0x85), (0xA0, 0xA0), (0x1680, 0x1680), (0x2000, 0x200A),
    (0x2028, 0x2029), (0x202F, 0x202F), (0x205F, 0x205F), (0x3000, 0x3000)]

/-- The character has the property `White_Space`. -/
def isBlank (c : Char) : Bool :=
  blankRanges.any fun (first, last) => first ≤ c.toNat && c.toNat ≤ last

/-- The text without its leading blank characters. -/
def skipBlank (s : List Char) : List Char := s.dropWhile isBlank

/-- The text without the blank characters at its two ends. -/
def trim (s : List Char) : List Char := (skipBlank (skipBlank s).reverse).reverse

theorem isBlank_of_isWhitespace {c : Char} (h : c.isWhitespace = true) : isBlank c = true := by
  have h' : c = ' ' ∨ c = '\t' ∨ c = '\r' ∨ c = '\n' := by
    simpa [Char.isWhitespace, or_assoc] using h
  rcases h' with rfl | rfl | rfl | rfl <;> decide

end Keyset.Text
