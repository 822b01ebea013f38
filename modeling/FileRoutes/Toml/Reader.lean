import FileRoutes.Toml.Number

/-!
# Reading a TOML document

A document is a sequence of lines: items under their keys, headers that say which table the items
after them belong to, comments and blank lines. A mark of the byte order may come first. Arrays
may go over several lines; inline tables may not.

Arrays and inline tables nest less than eighty levels, and a key has less than eighty parts.
-/

namespace FileRoutes.Toml

open Reader

/-- Arrays and inline tables nest less than so many levels. -/
def nestingBound : Nat := 80

/-! ### Keys -/

/-- A character of a key without quotes. -/
def isBareChar (c : Char) : Bool :=
  c.isAlphanum || c = '-' || c = '_'

/-- One part of a key. -/
def keyPart : Reader String := do
  match ← peek with
  | some '"' =>
    let _ ← next
    return String.ofList (← quotedRest (← get).length)
  | some '\'' =>
    let _ ← next
    return String.ofList (← literalRest)
  | _ =>
    let text ← takeWhile isBareChar
    if text.isEmpty then unexpected else return String.ofList text

/-- The parts of a key, with dots between them and blanks around them. -/
def keyParts : (fuel : Nat) → Reader (List String)
  | 0 => unexpected
  | fuel + 1 => do
    skipBlanks
    let part ← keyPart
    skipBlanks
    if ← accept ['.'] then return part :: (← keyParts fuel) else return [part]

/-- A key: the parts that lead to its table, and its last part. -/
def key : Reader (List String × String) := do
  let parts ← keyParts (← get).length
  if nestingBound ≤ parts.length then throw .tooDeep
  return (parts.dropLast, parts.getLast?.getD "")

/-! ### Values -/

mutual

/-- A value in which arrays and inline tables nest less than `depth` levels. -/
def value : (fuel depth : Nat) → Reader Item
  | 0, _ => unexpected
  | fuel + 1, depth => do
    match ← peek with
    | some '"' | some '\'' => return .string (← string (← get).length)
    | some '[' =>
      match depth with
      | depth + 2 =>
        let _ ← next
        return .array (← items fuel (depth + 1))
      | _ => throw .tooDeep
    | some '\x7b' =>
      match depth with
      | depth + 2 =>
        let _ ← next
        skipBlanks
        if ← accept ['\x7d'] then return .table .inlined []
        return .table .inlined (← inlineMembers fuel (depth + 1) [])
      | _ => throw .tooDeep
    | some 't' =>
      expect ['t', 'r', 'u', 'e']
      return .boolean true
    | some 'f' =>
      expect ['f', 'a', 'l', 's', 'e']
      return .boolean false
    | _ =>
      let chars ← get
      if startsDate chars || startsTime chars then moment else number

/-- The items of an array, after its opening bracket or a comma, and the closing bracket. -/
def items : (fuel depth : Nat) → Reader (List Item)
  | 0, _ => unexpected
  | fuel + 1, depth => do
    skipLines (← get).length
    if ← accept [']'] then return []
    let item ← value fuel depth
    skipLines (← get).length
    if ← accept [','] then return item :: (← items fuel depth)
    expect [']']
    return [item]

/-- The items of an inline table, after its opening brace or a comma, and the closing brace. They
are added to `members`. -/
def inlineMembers : (fuel depth : Nat) → Members → Reader Members
  | 0, _, _ => unexpected
  | fuel + 1, depth, members => do
    let (steps, name) ← key
    expect ['=']
    skipBlanks
    let item ← value fuel depth
    skipBlanks
    let members ← members.atDotted name item steps
    if ← accept [','] then return ← inlineMembers fuel depth members
    expect ['\x7d']
    return members

end

/-! ### Documents -/

/-- The part of a document that was read: its items, and the header in force. -/
structure Progress where
  /-- The items of the document so far. -/
  members : Members := []
  /-- The steps to the table that items belong to. -/
  header : List String := []

/-- Reads a line that starts a table. -/
def headerLine (p : Progress) : Reader Progress := do
  if ← accept ['[', '['] then
    let (steps, name) ← key
    expect [']', ']']
    endLine
    return ⟨← p.members.atHeader (·.appendTable name) steps, steps ++ [name]⟩
  else
    expect ['[']
    let (steps, name) ← key
    expect [']']
    endLine
    return ⟨← p.members.atHeader (·.openTable name) steps, steps ++ [name]⟩

/-- Reads a line with an item under its key. -/
def itemLine (p : Progress) : Reader Progress := do
  let (steps, name) ← key
  expect ['=']
  skipBlanks
  let item ← value (2 * (← get).length + 1) nestingBound
  endLine
  return { p with members := ← p.members.atHeader (·.atDotted name item steps) p.header }

/-- Reads the lines of a document. -/
def lines : (fuel : Nat) → Progress → Reader Progress
  | 0, p => return p
  | fuel + 1, p => do
    skipBlanks
    match ← peek with
    | none => return p
    | some '#' =>
      endLine
      lines fuel p
    | some '\n' | some '\r' =>
      unless ← acceptBreak do unexpected
      lines fuel p
    | some '[' => lines fuel (← headerLine p)
    | some _ => lines fuel (← itemLine p)

/-- The items of the document `text`. Every line takes a character, so that the length of the
text bounds their number. -/
def read (text : String) : Except Mistake Members := do
  let document : Reader Members := do
    let _ ← accept ['\ufeff']
    let p ← lines ((← get).length + 1) {}
    return p.members
  let (members, _) ← document.run text.toList
  return members

end FileRoutes.Toml
