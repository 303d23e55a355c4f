/-!
# Tables of code points

A character class beyond ASCII is data: a list of ranges of code points in increasing order.

* `RangeTable.contains`: whether a code point lies in one of the ranges.
* `isBlank`: the white space of Unicode, with the four separators U+001C to U+001F. `trim`: a text
  without the blanks at its two ends.
-/

namespace Recase.Text

/-- Ranges of code points, both ends included, in increasing order. -/
abbrev RangeTable := List (Nat × Nat)

namespace RangeTable

/-- Whether the code point lies in a range; the search ends at the first range that is not
wholly below it. -/
def contains : RangeTable → Nat → Bool
  | [], _ => false
  | (first, last) :: rest, n =>
    if n < first then false else if n ≤ last then true else contains rest n

end RangeTable

/-- The blank code points. -/
def blankTable : RangeTable :=
  [(0x9, 0xD), (0x1C, 0x20), (0x85, 0x85), (0xA0, 0xA0), (0x1680, 0x1680), (0x2000, 0x200A),
   (0x2028, 0x2029), (0x202F, 0x202F), (0x205F, 0x205F), (0x3000, 0x3000)]

/-- Whether the character is blank: a space, a line break or a separator of some width. -/
def isBlank (c : Char) : Bool := blankTable.contains c.toNat

/-- The text without the blanks at its start and at its end. -/
def trim (s : String) : String :=
  String.ofList ((s.toList.dropWhile isBlank).reverse.dropWhile isBlank).reverse

end Recase.Text
