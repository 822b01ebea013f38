import FileRoutes.Path

/-!
# Calls to a storage

Routes are compiled from a tree of files that is reached through four **calls**: list a directory,
ask whether a path leads to something, write a file, and make a directory with all its ancestors.
Each call has its own sort of reply. The names in a listing are Unicode text, like the paths in the
calls.
-/

namespace FileRoutes

/-- An entry of a directory. -/
structure Listed where
  /-- The name of the entry in its directory. -/
  name : String
  /-- The entry is a directory. -/
  isDirectory : Bool
deriving DecidableEq, Repr, Inhabited

/-- What is asked of a storage. -/
inductive Call where
  /-- The entries of a directory. -/
  | list (path : Path)
  /-- Whether the path leads to a file or directory. -/
  | probe (path : Path)
  /-- A file with these contents in a directory that is there. -/
  | write (path : Path) (contents : String)
  /-- A directory with all its ancestors. -/
  | makeDirectory (path : Path)
deriving DecidableEq, Repr

namespace Call

/-- The sorts of calls. -/
inductive Kind where
  | list
  | probe
  | write
  | makeDirectory
deriving DecidableEq, Repr

/-- The sort of a call. -/
def kind : Call → Kind
  | list _ => .list
  | probe _ => .probe
  | write _ _ => .write
  | makeDirectory _ => .makeDirectory

/-- The path that a call is about. -/
def path : Call → Path
  | list path => path
  | probe path => path
  | write path _ => path
  | makeDirectory path => path

/-- What answers a call. -/
abbrev Reply : Call → Type
  | list _ => List Listed
  | probe _ => Bool
  | write _ _ => Unit
  | makeDirectory _ => Unit

end Call

end FileRoutes
