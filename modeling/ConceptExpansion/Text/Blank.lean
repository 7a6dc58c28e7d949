/-
# Blank characters

The characters that Unicode counts as white space, and the text that is left
once they are taken off both ends. Core's own notion of white space knows only
four ASCII characters, so the table is spelled out here.
-/

namespace ConceptExpansion.Text

/-- The ranges of code points with the Unicode property White_Space, in
ascending order, both ends included. -/
def blankRanges : List (Nat × Nat) :=
  [(0x09, 0x0d), (0x20, 0x20), (0x85, 0x85), (0xa0, 0xa0), (0x1680, 0x1680),
    (0x2000, 0x200a), (0x2028, 0x2029), (0x202f, 0x202f), (0x205f, 0x205f),
    (0x3000, 0x3000)]

/-- A character is blank when it has the Unicode property White_Space. -/
def isBlank (c : Char) : Bool :=
  blankRanges.any fun range => range.1 ≤ c.toNat && c.toNat ≤ range.2

example : (blankRanges.map fun range => range.2 + 1 - range.1).sum = 25 := by decide

/-- The characters without the blank ones at either end. -/
def trim (text : List Char) : List Char :=
  ((text.dropWhile isBlank).reverse.dropWhile isBlank).reverse

example : trim [' ', '\t', 'a', ' ', 'b', '\n'] = ['a', ' ', 'b'] := by decide

end ConceptExpansion.Text
