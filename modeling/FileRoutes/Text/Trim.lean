/-!
# Trimming and rejoining

Cutting characters off the ends of a text, and changing one character for another.
-/

namespace FileRoutes.Text

/-- Cuts off the longest end of `chars` on which `p` holds throughout. -/
def dropEndWhile (p : Char → Bool) (chars : List Char) : List Char :=
  (chars.reverse.dropWhile p).reverse

/-- Cuts off both ends as far as `p` holds. -/
def dropBothWhile (p : Char → Bool) (chars : List Char) : List Char :=
  dropEndWhile p (chars.dropWhile p)

/-- A slash, the separator of path components. -/
def isSlash (c : Char) : Bool := c = '/'

/-- Nothing to cut in the empty text. -/
@[simp] theorem dropEndWhile_nil (p : Char → Bool) : dropEndWhile p [] = [] := rfl

/-- A last character on which `p` holds goes, and the rest is cut on. -/
theorem dropEndWhile_append_of_pos {p : Char → Bool} {c : Char} (chars : List Char)
    (h : p c = true) : dropEndWhile p (chars ++ [c]) = dropEndWhile p chars := by
  simp [dropEndWhile, h]

/-- A last character on which `p` fails stays, with all before it. -/
theorem dropEndWhile_append_of_neg {p : Char → Bool} {c : Char} (chars : List Char)
    (h : p c = false) : dropEndWhile p (chars ++ [c]) = chars ++ [c] := by
  simp [dropEndWhile, h]

end FileRoutes.Text
