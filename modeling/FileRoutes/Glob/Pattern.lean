/-!
# Glob patterns

A **pattern** is a list of tokens that is held against a whole path text. A star stands for any
run of characters inside one path component, a double star for whole components, a question mark
for one character and a class in brackets for one character of a set. Everything else stands for
itself: there is no escape, and braces have no meaning.

A double star has to be a path component of its own. A pattern that breaks this rule, holds three
stars in a row or leaves a class open is malformed, and the error names the index of the character
where that shows.
-/

namespace FileRoutes.Glob

/-- One item of a character class: a character, or all from one to another. -/
inductive ClassItem where
  | single (c : Char)
  | between (first last : Char)
deriving DecidableEq, Repr

/-- One item of a pattern. -/
inductive Token where
  /-- The character itself. -/
  | literal (c : Char)
  /-- One character, written as a question mark. -/
  | anyChar
  /-- Any run of characters within one path component, written as a star. -/
  | anyRun
  /-- Any run of whole path components, written as two stars. -/
  | anyDepth
  /-- One character of the class, written in brackets. -/
  | within (items : List ClassItem)
  /-- One character outside of the class, written in brackets after an exclamation mark. -/
  | outside (items : List ClassItem)
deriving DecidableEq, Repr

/-- What can be wrong with a pattern. -/
inductive Malformation where
  /-- Three or more stars in a row. -/
  | tooManyStars
  /-- Two stars that share a path component with something else. -/
  | sharedComponent
  /-- A class that is empty or never closed. -/
  | unclosedClass
deriving DecidableEq, Repr

/-- What is wrong with a malformed pattern, and at which character. -/
structure PatternError where
  /-- The index of the character at which the pattern goes wrong. -/
  position : Nat
  /-- What is wrong there. -/
  reason : Malformation
deriving DecidableEq, Repr

/-- The reason in words. -/
def Malformation.message : Malformation → String
  | .tooManyStars => "wildcards are either regular `*` or recursive `**`"
  | .sharedComponent => "recursive wildcards must form a single path component"
  | .unclosedClass => "invalid range pattern"

/-- The error in words. -/
def PatternError.message (e : PatternError) : String :=
  "Pattern syntax error near position " ++ toString e.position ++ ": " ++ e.reason.message

/-- A pattern: its text, and the tokens that the text stands for. -/
structure Pattern where
  /-- The pattern as written. -/
  text : String
  /-- The tokens of the text. -/
  tokens : List Token
deriving DecidableEq, Repr

/-! ### Reading -/

/-- The items of a class: a character, a hyphen and a character make a range as long as all three
are there, and every other character stands alone. -/
def classItems : List Char → List ClassItem
  | first :: '-' :: last :: rest => .between first last :: classItems rest
  | c :: rest => .single c :: classItems rest
  | [] => []

/-- A double star may follow `before`: the start of the pattern or a slash. -/
def opensComponent (before : Option Char) : Bool :=
  before = none || before = some '/'

mutual

/-- The tokens of the rest of a pattern that goes on at index `position`, after the character
`before`. A double star takes the slash that follows it along. -/
def readTokens (position : Nat) (before : Option Char) :
    List Char → Except PatternError (List Token)
  | [] => .ok []
  | '?' :: rest => (.anyChar :: ·) <$> readTokens (position + 1) (some '?') rest
  | '*' :: '*' :: '*' :: _ => .error ⟨position + 2, .tooManyStars⟩
  | '*' :: '*' :: '/' :: rest =>
    if opensComponent before then
      (.anyDepth :: ·) <$> readTokens (position + 3) (some '/') rest
    else .error ⟨position - 1, .sharedComponent⟩
  | '*' :: '*' :: rest =>
    if !opensComponent before then .error ⟨position - 1, .sharedComponent⟩
    else if rest.isEmpty then .ok [.anyDepth]
    else .error ⟨position + 2, .sharedComponent⟩
  | '*' :: rest => (.anyRun :: ·) <$> readTokens (position + 1) (some '*') rest
  | '[' :: '!' :: c :: rest => readClass position (position + 3) true [c] rest
  | '[' :: c :: rest =>
    if c = '!' then .error ⟨position, .unclosedClass⟩
    else readClass position (position + 2) false [c] rest
  | '[' :: [] => .error ⟨position, .unclosedClass⟩
  | c :: rest => (.literal c :: ·) <$> readTokens (position + 1) (some c) rest

/-- The tokens of the rest of a pattern inside a class that was opened at index `opened`.
`inside` holds the characters of the class read so far, last first: it is never empty, so that a
bracket right after the opening one belongs to the class. -/
def readClass (opened position : Nat) (negated : Bool) (inside : List Char) :
    List Char → Except PatternError (List Token)
  | [] => .error ⟨opened, .unclosedClass⟩
  | ']' :: rest =>
    let items := classItems inside.reverse
    ((if negated then .outside items else .within items) :: ·) <$>
      readTokens (position + 1) (some ']') rest
  | c :: rest => readClass opened (position + 1) negated (c :: inside) rest

end

/-- The pattern written as `text`. -/
def Pattern.ofText (text : String) : Except PatternError Pattern :=
  (⟨text, ·⟩) <$> readTokens 0 none text.toList

/-- A pattern keeps the text that it was read from. -/
theorem Pattern.text_of_ofText {text : String} {p : Pattern} (h : Pattern.ofText text = .ok p) :
    p.text = text := by
  simp only [ofText] at h
  cases hr : readTokens 0 none text.toList with
  | error e => simp [hr, Functor.map, Except.map] at h
  | ok tokens =>
    simp only [hr, Functor.map, Except.map, Except.ok.injEq] at h
    rw [← h]

end FileRoutes.Glob
