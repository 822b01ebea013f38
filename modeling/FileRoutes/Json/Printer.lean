import FileRoutes.Json.Basic

/-!
# Printing JSON

A value has a compact text, without any blank, and an indented one, with one item or member a line
and two spaces for each level; in that text an empty array or object is still closed at once.

Inside a string the quote and the backslash carry a backslash, five controls have a letter of
their own, and any other control below the space is written as four hexadecimal digits. All other
characters stand for themselves.
-/

namespace FileRoutes.Json

/-- One hexadecimal digit in lower case. -/
def hexDigit (n : Nat) : Char :=
  Nat.digitChar (n % 16)

/-- How one character stands inside a string. -/
def escapedChar (c : Char) : List Char :=
  if c = '"' ∨ c = '\\' then ['\\', c]
  else if c = '\x08' then ['\\', 'b']
  else if c = '\x0c' then ['\\', 'f']
  else if c = '\n' then ['\\', 'n']
  else if c = '\r' then ['\\', 'r']
  else if c = '\t' then ['\\', 't']
  else if c.toNat < 0x20 then ['\\', 'u', '0', '0', hexDigit (c.toNat / 16), hexDigit c.toNat]
  else [c]

/-- A string between quotes. -/
def stringChars (text : String) : List Char :=
  '"' :: text.toList.flatMap escapedChar ++ ['"']

/-! ### Compact text -/

mutual

/-- The characters of the compact text of a value. -/
def compactChars : Json → List Char
  | .null => ['n', 'u', 'l', 'l']
  | .bool true => ['t', 'r', 'u', 'e']
  | .bool false => ['f', 'a', 'l', 's', 'e']
  | .number numeral => numeral.toList
  | .string text => stringChars text
  | .array items => '[' :: compactItems items ++ [']']
  | .object members => '\x7b' :: compactMembers members ++ ['\x7d']

/-- The compact texts of items with commas between them. -/
def compactItems : List Json → List Char
  | [] => []
  | [item] => compactChars item
  | item :: rest => compactChars item ++ ',' :: compactItems rest

/-- The compact texts of members with commas between them. -/
def compactMembers : List (String × Json) → List Char
  | [] => []
  | [(name, value)] => stringChars name ++ ':' :: compactChars value
  | (name, value) :: rest =>
    stringChars name ++ ':' :: compactChars value ++ ',' :: compactMembers rest

end

/-- The compact text of a value. -/
def compact (value : Json) : String :=
  String.ofList value.compactChars

/-! ### Indented text -/

/-- A line break, and two spaces for each level. -/
def newLine (level : Nat) : List Char :=
  '\n' :: List.replicate (2 * level) ' '

mutual

/-- The characters of the indented text of a value that stands at `level`. -/
def prettyChars (level : Nat) : Json → List Char
  | .array [] => ['[', ']']
  | .array items =>
    '[' :: newLine (level + 1) ++ prettyItems (level + 1) items ++ newLine level ++ [']']
  | .object [] => ['\x7b', '\x7d']
  | .object members =>
    '\x7b' :: newLine (level + 1) ++ prettyMembers (level + 1) members ++ newLine level ++ ['\x7d']
  | .null => compactChars .null
  | .bool b => compactChars (.bool b)
  | .number numeral => compactChars (.number numeral)
  | .string text => compactChars (.string text)

/-- The indented texts of items, each on a new line. -/
def prettyItems (level : Nat) : List Json → List Char
  | [] => []
  | [item] => prettyChars level item
  | item :: rest => prettyChars level item ++ ',' :: newLine level ++ prettyItems level rest

/-- The indented texts of members, each on a new line. -/
def prettyMembers (level : Nat) : List (String × Json) → List Char
  | [] => []
  | [(name, value)] => stringChars name ++ ':' :: ' ' :: prettyChars level value
  | (name, value) :: rest =>
    stringChars name ++ ':' :: ' ' :: prettyChars level value ++ ',' :: newLine level ++
      prettyMembers level rest

end

/-- The indented text of a value. -/
def pretty (value : Json) : String :=
  String.ofList (value.prettyChars 0)

end FileRoutes.Json
