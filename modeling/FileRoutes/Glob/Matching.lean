import FileRoutes.Glob.Pattern

/-!
# Matching a path against a pattern

A pattern matches a whole path text. Slashes separate components, and no wildcard or class stands
for one, except that a double star stands for whole components with the slashes after them. No
wildcard or class stands for a dot that opens a component either: a hidden entry has to be named.

Matching goes through the tokens from left to right and keeps one bit of what came before: whether
a component opens here, which is so at the start of the text and after a slash.
-/

namespace FileRoutes.Glob

/-- The item stands for `c`. -/
def ClassItem.holds (c : Char) : ClassItem → Bool
  | .single d => c = d
  | .between first last => first ≤ c && c ≤ last

/-- A wildcard may stand for `c`, where `opening` says whether a component opens here. -/
def isWild (opening : Bool) (c : Char) : Bool :=
  c ≠ '/' && !(opening && c = '.')

/-- A run of characters inside one component, then `next` on what is left. -/
def runThen (next : Bool → List Char → Bool) : Bool → List Char → Bool
  | opening, [] => next opening []
  | opening, c :: rest =>
    next opening (c :: rest) || (isWild opening c && runThen next false rest)

/-- A run of whole components, then `next` on what is left: where a component opens, or at the end
of the text. -/
def depthThen (next : Bool → List Char → Bool) : Bool → List Char → Bool
  | opening, [] => next opening []
  | opening, c :: rest =>
    (opening && next opening (c :: rest)) ||
      (!(opening && c = '.') && depthThen next (c = '/') rest)

/-- One character on which `p` holds, then `next` on what is left. -/
def charThen (p : Char → Bool) (next : Bool → List Char → Bool) : List Char → Bool
  | [] => false
  | c :: rest => p c && next (c = '/') rest

/-- The tokens match all of the text. -/
def matchTokens : List Token → Bool → List Char → Bool
  | [], _, text => text.isEmpty
  | .literal d :: rest, _, text => charThen (· = d) (matchTokens rest) text
  | .anyChar :: rest, opening, text => charThen (isWild opening) (matchTokens rest) text
  | .within items :: rest, opening, text =>
    charThen (fun c => isWild opening c && items.any (·.holds c)) (matchTokens rest) text
  | .outside items :: rest, opening, text =>
    charThen (fun c => isWild opening c && !items.any (·.holds c)) (matchTokens rest) text
  | .anyRun :: rest, opening, text => runThen (matchTokens rest) opening text
  | .anyDepth :: rest, opening, text => depthThen (matchTokens rest) opening text

/-- The pattern matches the whole path text. -/
def Pattern.accepts (p : Pattern) (path : String) : Bool :=
  matchTokens p.tokens true path.toList

end FileRoutes.Glob
