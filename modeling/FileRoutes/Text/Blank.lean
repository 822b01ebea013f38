/-!
# Blank text

A text is **blank** when it holds nothing but white space in the sense of the Unicode property
White_Space.
-/

namespace FileRoutes.Text

/-- The code points with the property White_Space, as ranges in ascending order. -/
def blankRanges : List (Nat × Nat) :=
  [(0x9, 0xd), (0x20, 0x20), (0x85, 0x85), (0xa0, 0xa0), (0x1680, 0x1680), (0x2000, 0x200a),
    (0x2028, 0x2029), (0x202f, 0x202f), (0x205f, 0x205f), (0x3000, 0x3000)]

/-- A white space character. -/
def isBlankChar (c : Char) : Bool :=
  blankRanges.any fun range => range.1 ≤ c.toNat && c.toNat ≤ range.2

/-- A text of white space only. -/
def isBlank (text : String) : Bool :=
  text.toList.all isBlankChar

end FileRoutes.Text
