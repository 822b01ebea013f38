import FileRoutes.Toml.Item

/-!
# The characters of a TOML document

A reader takes something off the front of the characters that are left, or says what is wrong.
This module holds the readers for blanks, line ends, comments and strings.

A string stands between quotes or apostrophes, one of them on one line, three of them over
several. Between quotes a backslash opens an escape; at the end of a line it swallows the break
and the blanks that follow. A break right after the three opening marks does not count, and the
closing marks may have up to two of their kind in front of them that belong to the string.
-/

namespace FileRoutes.Toml

/-- Takes a result off the front of the characters that are left. -/
abbrev Reader (α : Type) := StateT (List Char) (Except Mistake) α

namespace Reader

/-- Nothing of the grammar goes on here. -/
def unexpected {α : Type} : Reader α := fun chars => .error (.unexpected chars.length)

/-- The next character. -/
def next : Reader Char
  | c :: rest => .ok (c, rest)
  | [] => .error (.unexpected 0)

/-- The next character, left where it is. -/
def peek : Reader (Option Char) := fun chars => .ok (chars.head?, chars)

/-- The longest run of characters on which `p` holds. -/
def takeWhile (p : Char → Bool) : Reader (List Char) := fun chars =>
  .ok (chars.takeWhile p, chars.dropWhile p)

/-- Takes `text` if it comes next, and says whether it did. -/
def accept (text : List Char) : Reader Bool := fun chars =>
  match text.isPrefixOf? chars with
  | some rest => .ok (true, rest)
  | none => .ok (false, chars)

/-- Takes `text`, which has to come next. -/
def expect (text : List Char) : Reader Unit := do
  unless ← accept text do unexpected

end Reader

open Reader

/-! ### Blanks, line ends and comments -/

/-- A blank inside a line. -/
def isBlank (c : Char) : Bool :=
  c = ' ' || c = '\t'

/-- A character beyond ASCII. -/
def isBeyondAscii (c : Char) : Bool :=
  0x80 ≤ c.toNat

/-- A character that may stand on a line: no control but the tab. -/
def isLineChar (c : Char) : Bool :=
  c = '\t' || (0x20 ≤ c.toNat && c.toNat ≤ 0x7e) || isBeyondAscii c

/-- Skips the blanks of a line. -/
def skipBlanks : Reader Unit := do
  let _ ← takeWhile isBlank

/-- Takes a line break, which may have a carriage return, and says whether there was one. -/
def acceptBreak : Reader Bool := do
  if ← accept ['\n'] then return true
  accept ['\r', '\n']

/-- Skips a comment, if one starts here. -/
def skipComment : Reader Unit := do
  if ← accept ['#'] then
    let _ ← takeWhile isLineChar

/-- The rest of a line after an expression: blanks, perhaps a comment, and a break or the end. -/
def endLine : Reader Unit := do
  skipBlanks
  skipComment
  unless ← acceptBreak do
    unless (← peek).isNone do unexpected

/-- Skips blanks, comments and line breaks between the items of an array; a comment there has to
end in a break. -/
def skipLines : (fuel : Nat) → Reader Unit
  | 0 => skipBlanks
  | fuel + 1 => do
    skipBlanks
    match ← peek with
    | some '#' =>
      skipComment
      unless ← acceptBreak do unexpected
      skipLines fuel
    | some '\n' | some '\r' =>
      unless ← acceptBreak do unexpected
      skipLines fuel
    | _ => return

/-! ### Strings -/

/-- The value of a hexadecimal digit. -/
def hexValue? (c : Char) : Option Nat :=
  if '0' ≤ c ∧ c ≤ '9' then some (c.toNat - '0'.toNat)
  else if 'a' ≤ c ∧ c ≤ 'f' then some (c.toNat - 'a'.toNat + 10)
  else if 'A' ≤ c ∧ c ≤ 'F' then some (c.toNat - 'A'.toNat + 10)
  else none

/-- The character whose code point is written in `count` hexadecimal digits. -/
def codePoint : (count value : Nat) → Reader Char
  | 0, value => if value.isValidChar then return Char.ofNat value else unexpected
  | count + 1, value => do
    match hexValue? (← next) with
    | some digit => codePoint count (16 * value + digit)
    | none => unexpected

/-- The character of an escape, after its backslash. -/
def escape : Reader Char := do
  match ← next with
  | 'b' => return '\x08'
  | 't' => return '\t'
  | 'n' => return '\n'
  | 'f' => return '\x0c'
  | 'r' => return '\r'
  | '"' => return '"'
  | '\\' => return '\\'
  | 'u' => codePoint 4 0
  | 'U' => codePoint 8 0
  | _ => unexpected

/-- The rest of a one-line string in quotes, after the opening one. -/
def quotedRest : (fuel : Nat) → Reader (List Char)
  | 0 => unexpected
  | fuel + 1 => do
    match ← next with
    | '"' => return []
    | '\\' =>
      let c ← escape
      return c :: (← quotedRest fuel)
    | c => if isLineChar c then return c :: (← quotedRest fuel) else unexpected

/-- The rest of a one-line string in apostrophes, after the opening one. -/
def literalRest : Reader (List Char) := do
  let text ← takeWhile fun c => isLineChar c && c ≠ '\''
  expect ['\'']
  return text

/-- Takes the three marks that close a string over several lines, with up to two more in front of
them, which are given back as text. -/
def closing? (mark : Char) : Reader (Option (List Char)) := fun chars =>
  let count := (chars.takeWhile (· = mark)).length
  if count < 3 then .ok (none, chars)
  else
    let inside := min (count - 3) 2
    .ok (some (List.replicate inside mark), chars.drop (inside + 3))

/-- After a backslash: takes blanks up to a line break, if one follows them, and says whether one
does. -/
def acceptFold : Reader Bool := fun chars =>
  let after := chars.dropWhile isBlank
  match after with
  | '\n' :: _ => .ok (true, after)
  | '\r' :: '\n' :: _ => .ok (true, after)
  | _ => .ok (false, chars)

/-- Skips blanks and line breaks. -/
def skipFold : (fuel : Nat) → Reader Unit
  | 0 => skipBlanks
  | fuel + 1 => do
    skipBlanks
    if ← acceptBreak then skipFold fuel

/-- The rest of a string over several lines between marks of the given kind, after the opening
ones. Only between quotes does a backslash open an escape. -/
def multilineRest (mark : Char) : (fuel : Nat) → Reader (List Char)
  | 0 => unexpected
  | fuel + 1 => do
    match ← closing? mark with
    | some text => return text
    | none =>
      if ← acceptBreak then return '\n' :: (← multilineRest mark fuel)
      let c ← next
      if c = '\\' && mark = '"' then
        if ← acceptFold then
          skipFold fuel
          multilineRest mark fuel
        else
          let c ← escape
          return c :: (← multilineRest mark fuel)
      else if isLineChar c then return c :: (← multilineRest mark fuel)
      else unexpected

/-- A string of any of the four kinds. -/
def string (fuel : Nat) : Reader String := do
  let text ←
    if ← accept ['"', '"', '"'] then
      let _ ← acceptBreak
      multilineRest '"' fuel
    else if ← accept ['"'] then quotedRest fuel
    else if ← accept ['\'', '\'', '\''] then
      let _ ← acceptBreak
      multilineRest '\'' fuel
    else if ← accept ['\''] then literalRest
    else unexpected
  return String.ofList text

end FileRoutes.Toml
