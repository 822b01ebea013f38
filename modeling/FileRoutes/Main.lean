import FileRoutes.Command.Execution

/-!
# The command on the operating system

The outer layer of the command: it answers calls with the files of the operating system, hands the
words of the command line to the library, and prints what comes back. It decides nothing.
-/

namespace FileRoutes.Main

/-- The reason that the operating system gives for a refusal. -/
def refusalOf : IO.Error → Refusal
  | .noFileOrDirectory .. => .notFound
  | .alreadyExists .. => .alreadyThere
  | e => .other (toString e)

/-- An attempt, with the refusal in place of an error. -/
def attempt {α : Type} (action : IO α) : IO (Except Refusal α) := do
  match ← action.toBaseIO with
  | .ok a => return .ok a
  | .error e => return .error (refusalOf e)

/-- The entries of a directory, in the order in which the system gives them. -/
def listing (path : Path) : IO (List Listed) := do
  let entries ← ((← IO.currentDir) / path.text).readDir
  entries.toList.mapM fun e => do
    return ⟨e.fileName, ← e.path.isDir⟩

/-- The path leads to something. -/
def isThere (path : Path) : IO (Except Refusal Bool) := do
  match ← attempt ((← IO.currentDir) / path.text).metadata with
  | .ok _ => return .ok true
  | .error .notFound => return .ok false
  | .error refusal => return .error refusal

/-- The files of the operating system answer calls. -/
def storage : Storage IO
  | .list path => do return (← attempt (listing path)).mapError (.refused .list path)
  | .probe path => do return (← isThere path).mapError (.refused .probe path)
  | .write path contents => do
    return (← attempt (IO.FS.writeFile path.text contents)).mapError (.refused .write path)
  | .makeDirectory path => do
    return (← attempt (IO.FS.createDirAll path.text)).mapError (.refused .makeDirectory path)

/-- What the operating system has where an options file may be. -/
def optionsSource (path : Path) : IO Options.Source := do
  match ← isThere path with
  | .ok true =>
    match ← attempt (IO.FS.readBinFile path.text) with
    | .ok bytes => return (String.fromUTF8? bytes).elim (.unreadable .notText) .text
    | .error refusal => return .unreadable refusal
  | _ => return .absent

/-- More levels of directories than the longest path of the system has. -/
def scanDepth : Nat := 4096

/-- The operating system as the surroundings of a run. -/
def host : Command.Host IO where
  storage := storage
  optionsSource := optionsSource
  writeFile path contents := attempt (IO.FS.writeFile path.text contents)
  scanDepth _ := return scanDepth

end FileRoutes.Main

open FileRoutes in
/-- Runs the command in the working directory. -/
def main (words : List String) : IO UInt32 := do
  let outcome ← Command.run Main.host words
  IO.print outcome.output
  IO.eprint outcome.complaint
  return outcome.exitCode.toUInt32
