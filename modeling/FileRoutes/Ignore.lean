import FileRoutes.Fault
import FileRoutes.Glob.Matching

/-!
# Ignored entries

A set of patterns says which entries are passed over. A file is ignored if a pattern matches its
path. A directory is also ignored if it is the one a pattern for everything below it hangs off:
a pattern that ends in a slash and two stars is tried a second time without that end.
-/

namespace FileRoutes

/-- Patterns for entries to pass over. -/
structure IgnoreSet where
  /-- The patterns as given. -/
  patterns : List Glob.Pattern := []
  /-- For each pattern that covers everything below a directory, the pattern of that directory. -/
  trees : List Glob.Pattern := []
deriving Repr, DecidableEq

namespace IgnoreSet

/-- Reads one pattern. -/
def readPattern (text : String) : Except Fault Glob.Pattern :=
  match Glob.Pattern.ofText text with
  | .ok p => .ok p
  | .error e => .error (.ignorePattern text e)

/-- The directory whose entries a pattern covers: the pattern without a slash and two stars at the
end, if something is left. -/
def treeOf? (text : String) : Option String :=
  match ['/', '*', '*'].isSuffixOf? text.toList with
  | some (c :: rest) => some (String.ofList (c :: rest))
  | _ => none

/-- The set of the given patterns; the first one that is malformed is an error. -/
def ofTexts (texts : List String) : Except Fault IgnoreSet := do
  let patterns ← texts.mapM readPattern
  let trees ← (patterns.filterMap fun p => treeOf? p.text).mapM readPattern
  return ⟨patterns, trees⟩

/-- A file at this path is passed over. -/
def ignoresFile (s : IgnoreSet) (path : String) : Bool :=
  s.patterns.any (·.accepts path)

/-- A directory at this path is passed over, with all that is in it. -/
def ignoresDirectory (s : IgnoreSet) (path : String) : Bool :=
  s.ignoresFile path || s.trees.any (·.accepts path)

/-- An entry at this path is passed over. -/
def ignores (s : IgnoreSet) (isDirectory : Bool) (path : String) : Bool :=
  if isDirectory then s.ignoresDirectory path else s.ignoresFile path

/-- The number of patterns given. -/
def size (s : IgnoreSet) : Nat :=
  s.patterns.length

/-- No pattern was given. -/
def isEmpty (s : IgnoreSet) : Bool :=
  s.patterns.isEmpty

/-- A path that is passed over as a file is so as a directory. -/
theorem ignoresDirectory_of_ignoresFile {s : IgnoreSet} {path : String}
    (h : s.ignoresFile path = true) : s.ignoresDirectory path = true := by
  simp [ignoresDirectory, h]

end IgnoreSet

end FileRoutes
