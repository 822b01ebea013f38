import FileRoutes.Command.Arguments
import FileRoutes.Compile
import FileRoutes.Entry.Json
import FileRoutes.Storage.Disk

/-!
# Running the command

A command line is read, the options are loaded and adjusted by the arguments, and the routes are
compiled; then the configuration is printed, written to a file or shown as a tree. A run ends with
what it prints, or with the fault or misuse that stopped it.

All that a run needs from its surroundings is a **host**, so that one definition runs on the
operating system and on a disk that is a value.

Left out is what accompanies a run without being its result: the log, with its levels, the note that
a file was written and how many entries it has, and colours. The words of the help and of complaints
about the arguments are the library's own; faults are worded in full in `Fault`.
-/

namespace FileRoutes.Command

/-- The surroundings of a run. -/
structure Host (m : Type → Type) where
  /-- Answers the calls of the scan. -/
  storage : Storage m
  /-- What is found where an options file may be. -/
  optionsSource : Path → m Options.Source
  /-- Writes a file. -/
  writeFile : Path → String → m (Except Refusal Unit)
  /-- More levels of directories than a scan can go through. -/
  scanDepth : Options → m Nat

/-! ### Outcomes -/

/-- How a run ends. -/
inductive Outcome where
  /-- The run did what it was to do, and printed this. -/
  | success (output : String)
  /-- The run was stopped by a fault. -/
  | failure (fault : Fault)
  /-- The arguments make no sense. -/
  | misuse (m : Misuse)
deriving DecidableEq, Repr

/-- The code with which the command ends. -/
def Outcome.exitCode : Outcome → Nat
  | .success _ => 0
  | .failure _ => 1
  | .misuse _ => 2

/-- What the command prints. -/
def Outcome.output : Outcome → String
  | .success output => output
  | .failure _ | .misuse _ => ""

/-- A fault in words, with its causes below it. -/
def faultText (f : Fault) : String :=
  "Error: " ++ f.message ++ "\n" ++
    match f.chain.drop 1 with
    | [] => ""
    | causes => "\nCaused by:\n" ++ String.join (causes.map fun cause => "    " ++ cause ++ "\n")

/-- A misuse in words. -/
def Misuse.message : Misuse → String
  | .unexpected word => "unexpected argument '" ++ word ++ "' found"
  | .missingValue s => "a value is required for '--" ++ s.long ++ "' but none was supplied"
  | .emptyPath s => "a value is required for '--" ++ s.long ++ "' but none was supplied"
  | .needlessValue s => "unexpected value for '--" ++ s.long ++ "' found; no more were expected"
  | .repeatedSwitch s => "the argument '--" ++ s.long ++ "' cannot be used multiple times"
  | .repeatedSetting s => "the argument '--" ++ s.long ++ "' cannot be used multiple times"
  | .contradiction => "the argument '--verbose' cannot be used with '--quiet'"
  | .noSubcommand => "a subcommand is required but one was not provided"

/-- What the command complains about. -/
def Outcome.complaint : Outcome → String
  | .success _ => ""
  | .failure fault => faultText fault
  | .misuse problem => "error: " ++ problem.message ++ "\n"

/-- The version of the command. -/
def versionText : String := "jam-routes 0.1.0\n"

/-- How the command is used. -/
def helpText : String :=
  "Compile file-system routes into a React Router route config\n\n" ++
  "Usage: jam-routes [OPTIONS] <COMMAND>\n\n" ++
  "Commands:\n" ++
  "  build  Compile routes and print the configuration as JSON\n" ++
  "  tree   Compile routes and print them as a tree\n" ++
  "  help   Print this message or the help of the given subcommand(s)\n"

/-! ### Options -/

/-- The options file that the arguments name. -/
def Given.optionsPath (g : Given) : Path :=
  g.config.getD ⟨Options.fileName⟩

/-- The options of the file, adjusted by the arguments: the root and the routes directory are
replaced, and patterns are added. -/
def Given.adjust (g : Given) (o : Options) : Options :=
  { o with
    root := g.root.getD o.root
    routes := g.routes.getD o.routes
    ignored := o.ignored ++ g.ignored }

/-! ### The tree -/

/-- What stands for an entry in the tree. -/
def label (e : Entry) : String :=
  if e.isIndex then "(index)" else e.path.getD "[layout]"

/-- The line of an entry that stands at `level`. -/
def treeLine (level : Nat) (e : Entry) : String :=
  String.ofList (List.replicate (2 * level) ' ') ++ label e ++ " " ++ e.file

mutual

/-- The lines of an entry that stands at `level` and of the entries inside. -/
def treeLines (level : Nat) : Entry → List String
  | ⟨path, file, isIndex, children⟩ =>
    treeLine level ⟨path, file, isIndex, children⟩ :: treeLinesAll (level + 1) children

/-- The lines of entries that stand at `level`, in order. -/
def treeLinesAll (level : Nat) : List Entry → List String
  | [] => []
  | e :: rest => treeLines level e ++ treeLinesAll level rest

end

/-- The configuration as a tree under the path of the routes directory. -/
def treeText (o : Options) (entries : List Entry) : String :=
  String.join ((o.routesPath.text :: treeLinesAll 1 entries).map (· ++ "\n"))

/-! ### Runs -/

variable {m : Type → Type} [Monad m]

/-- Compiles with the options that the arguments give, and goes on with them and the
configuration. -/
def compileGiven (host : Host m) (g : Given) (next : Options → List Entry → m Outcome) :
    m Outcome := do
  let path := g.optionsPath
  match Options.load path (← host.optionsSource path) with
  | .error f => return .failure f
  | .ok loaded =>
    let o := g.adjust loaded
    match ← compile host.storage o (← host.scanDepth o) with
    | .error f => return .failure f
    | .ok entries => next o entries

/-- Does what the command line asks for. -/
def perform (host : Host m) : Request → m Outcome
  | .build g => compileGiven host g fun _ entries => do
    let text := if g.pretty then Entry.prettyText entries else Entry.compactText entries
    match g.out with
    | none => return .success (text ++ "\n")
    | some path =>
      match ← host.writeFile path text with
      | .ok _ => return .success ""
      | .error refusal => return .failure (.output path refusal)
  | .tree g => compileGiven host g fun o entries => return .success (treeText o entries)

/-- Runs the command with the given words. -/
def run (host : Host m) (words : List String) : m Outcome :=
  match read words with
  | .ok request => perform host request
  | .error .help => return .success helpText
  | .error .version => return .success versionText
  | .error (.misuse problem) => return .misuse problem

end FileRoutes.Command

namespace FileRoutes.Disk

/-- More levels of directories than a scan on this disk can go through. -/
def scanDepth (d : Disk) (o : Options) : Nat :=
  max d.depth (d.here.length + o.cache.path.names.length) + 2

/-- A disk as the surroundings of a run. -/
def host : Command.Host (StateM Disk) where
  storage := storage
  optionsSource path := fun d => (d.optionsSource path, d)
  writeFile path contents := fun d =>
    match d.write path contents.toUTF8 with
    | .ok written => (.ok (), written)
    | .error refusal => (.error refusal, d)
  scanDepth o := fun d => (d.scanDepth o, d)

/-- Compiles the routes on a disk, which may gain placeholders. -/
def compile (d : Disk) (o : Options) : Except Fault (List Entry) × Disk :=
  (FileRoutes.compile storage o (d.scanDepth o)).run d

/-- Runs the command in the working directory of a disk. -/
def run (d : Disk) (words : List String) : Command.Outcome × Disk :=
  (Command.run host words).run d

end FileRoutes.Disk
