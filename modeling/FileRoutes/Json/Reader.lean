import FileRoutes.Json.Basic

/-!
# Reading JSON

A reader takes a value off the front of a list of characters and leaves the rest. Between tokens
blanks are skipped. A string holds no control below the space; its escapes are those of the
printer, the slash, and any code unit in four hexadecimal digits, where a high surrogate has to be
followed by a low one. A numeral is kept as it is written.

Arrays and objects nest as deeply as the reader is told to follow.
-/

namespace FileRoutes.Json

/-- The blanks between tokens. -/
def isBlank (c : Char) : Bool :=
  c = ' ' || c = '\n' || c = '\t' || c = '\r'

/-- What follows the blanks. -/
def skipBlanks (chars : List Char) : List Char :=
  chars.dropWhile isBlank

/-! ### Strings -/

/-- The value of a hexadecimal digit. -/
def hexValue? (c : Char) : Option Nat :=
  if '0' ≤ c ∧ c ≤ '9' then some (c.toNat - '0'.toNat)
  else if 'a' ≤ c ∧ c ≤ 'f' then some (c.toNat - 'a'.toNat + 10)
  else if 'A' ≤ c ∧ c ≤ 'F' then some (c.toNat - 'A'.toNat + 10)
  else none

/-- The number that hexadecimal digits stand for. -/
def hexNumber? (digits : List Char) : Option Nat :=
  digits.foldlM (fun n c => (hexValue? c).map (16 * n + ·)) 0

/-- The character that a letter after a backslash stands for. -/
def unescaped? : Char → Option Char
  | '"' => some '"'
  | '\\' => some '\\'
  | '/' => some '/'
  | 'b' => some '\x08'
  | 'f' => some '\x0c'
  | 'n' => some '\n'
  | 'r' => some '\r'
  | 't' => some '\t'
  | _ => none

/-- The character of a surrogate pair. -/
def pairChar? (high low : Nat) : Option Char :=
  if 0xdc00 ≤ low ∧ low < 0xe000 then
    some (Char.ofNat (0x10000 + (high - 0xd800) * 0x400 + (low - 0xdc00)))
  else none

/-- The characters of a string up to its closing quote, and what follows that. -/
def readString : List Char → Option (List Char × List Char)
  | [] => none
  | '"' :: rest => some ([], rest)
  | '\\' :: 'u' :: a :: b :: c :: d :: rest => do
    let unit ← hexNumber? [a, b, c, d]
    if 0xd800 ≤ unit ∧ unit < 0xdc00 then
      match rest with
      | '\\' :: 'u' :: e :: f :: g :: h :: rest =>
        let character ← pairChar? unit (← hexNumber? [e, f, g, h])
        let (text, rest) ← readString rest
        return (character :: text, rest)
      | _ => none
    else if 0xdc00 ≤ unit ∧ unit < 0xe000 then none
    else
      let (text, rest) ← readString rest
      return (Char.ofNat unit :: text, rest)
  | '\\' :: c :: rest => do
    let character ← unescaped? c
    let (text, rest) ← readString rest
    return (character :: text, rest)
  | c :: rest =>
    if c.toNat < 0x20 ∨ c = '\\' then none
    else do
      let (text, rest) ← readString rest
      return (c :: text, rest)

/-! ### Numerals -/

/-- The longest run of digits at the front, and what follows it: nothing if there is none. -/
def readDigits? (chars : List Char) : Option (List Char × List Char) :=
  match chars.takeWhile Char.isDigit with
  | [] => none
  | digits => some (digits, chars.dropWhile Char.isDigit)

/-- The integral part of a numeral: no zero in front of other digits. -/
def readIntegral? : List Char → Option (List Char × List Char)
  | '0' :: rest => some (['0'], rest)
  | chars => readDigits? chars

/-- The fraction of a numeral, if there is one. -/
def readFraction? : List Char → Option (List Char × List Char)
  | '.' :: rest => (readDigits? rest).map fun (digits, rest) => ('.' :: digits, rest)
  | chars => some ([], chars)

/-- The exponent of a numeral, if there is one. -/
def readExponent? : List Char → Option (List Char × List Char)
  | c :: rest =>
    if c = 'e' ∨ c = 'E' then
      match rest with
      | sign :: after =>
        if sign = '+' ∨ sign = '-' then
          (readDigits? after).map fun (digits, rest) => (c :: sign :: digits, rest)
        else (readDigits? rest).map fun (digits, rest) => (c :: digits, rest)
      | [] => none
    else some ([], c :: rest)
  | [] => some ([], [])

/-- A numeral, and what follows it. -/
def readNumeral? (chars : List Char) : Option (List Char × List Char) := do
  let (sign, rest) := match chars with
    | '-' :: rest => (['-'], rest)
    | _ => ([], chars)
  let (integral, rest) ← readIntegral? rest
  let (fraction, rest) ← readFraction? rest
  let (exponent, rest) ← readExponent? rest
  return (sign ++ integral ++ fraction ++ exponent, rest)

/-! ### Values -/

mutual

/-- A value in which arrays and objects nest at most `depth` levels, and what follows it. -/
def readValue : (fuel depth : Nat) → List Char → Option (Json × List Char)
  | 0, _, _ => none
  | fuel + 1, depth, chars =>
    match skipBlanks chars with
    | 'n' :: 'u' :: 'l' :: 'l' :: rest => some (.null, rest)
    | 't' :: 'r' :: 'u' :: 'e' :: rest => some (.bool true, rest)
    | 'f' :: 'a' :: 'l' :: 's' :: 'e' :: rest => some (.bool false, rest)
    | '"' :: rest =>
      (readString rest).map fun (text, rest) => (.string (String.ofList text), rest)
    | '[' :: rest =>
      match depth, skipBlanks rest with
      | 0, _ => none
      | _, ']' :: rest => some (.array [], rest)
      | depth + 1, rest => (readItems fuel depth rest).map fun (items, rest) => (.array items, rest)
    | '\x7b' :: rest =>
      match depth, skipBlanks rest with
      | 0, _ => none
      | _, '\x7d' :: rest => some (.object [], rest)
      | depth + 1, rest =>
        (readMembers fuel depth rest).map fun (members, rest) => (.object members, rest)
    | rest =>
      (readNumeral? rest).map fun (numeral, rest) => (.number (String.ofList numeral), rest)

/-- The items of an array up to its closing bracket, and what follows that. -/
def readItems : (fuel depth : Nat) → List Char → Option (List Json × List Char)
  | 0, _, _ => none
  | fuel + 1, depth, chars => do
    let (item, rest) ← readValue fuel depth chars
    match skipBlanks rest with
    | ',' :: rest =>
      let (items, rest) ← readItems fuel depth rest
      return (item :: items, rest)
    | ']' :: rest => return ([item], rest)
    | _ => none

/-- The members of an object up to its closing brace, and what follows that. -/
def readMembers : (fuel depth : Nat) → List Char → Option (List (String × Json) × List Char)
  | 0, _, _ => none
  | fuel + 1, depth, chars => do
    let '"' :: rest := skipBlanks chars | none
    let (name, rest) ← readString rest
    let ':' :: rest := skipBlanks rest | none
    let (value, rest) ← readValue fuel depth rest
    let member := (String.ofList name, value)
    match skipBlanks rest with
    | ',' :: rest =>
      let (members, rest) ← readMembers fuel depth rest
      return (member :: members, rest)
    | '\x7d' :: rest => return ([member], rest)
    | _ => none

end

/-- The value that all of `text` stands for, if arrays and objects in it nest at most `depth`
levels. Each step of the reader that takes no character is followed by one that does, so that
twice the length of the text is enough fuel. -/
def readWithin (depth : Nat) (text : String) : Option Json :=
  match readValue (2 * text.length + 1) depth text.toList with
  | some (value, rest) => if (skipBlanks rest).isEmpty then some value else none
  | none => none

/-- The value that all of `text` stands for. -/
def read (text : String) : Option Json :=
  readWithin text.length text

end FileRoutes.Json
