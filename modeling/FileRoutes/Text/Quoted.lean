import FileRoutes.Text.Unprintable

/-!
# Quoted text in messages

Paths and patterns stand in messages between double quotes. Inside, the quote and the backslash
carry a backslash, four controls have a letter of their own, every other unprintable character is
shown as its hexadecimal code point in braces, and all else stands for itself.
-/

namespace FileRoutes.Text

/-- The code point of a character in lower-case hexadecimal digits. -/
def hexCode (c : Char) : List Char :=
  Nat.toDigits 16 c.toNat

/-- How one character stands inside quotes. -/
def quotedChar (c : Char) : List Char :=
  if c = '"' ∨ c = '\\' then ['\\', c]
  else if c = '\n' then ['\\', 'n']
  else if c = '\r' then ['\\', 'r']
  else if c = '\t' then ['\\', 't']
  else if c = '\x00' then ['\\', '0']
  else if isUnprintable c then ['\\', 'u', '\x7b'] ++ hexCode c ++ ['\x7d']
  else [c]

/-- A text between double quotes, on one line. -/
def quoted (text : String) : String :=
  String.ofList ('"' :: text.toList.flatMap quotedChar ++ ['"'])

end FileRoutes.Text
