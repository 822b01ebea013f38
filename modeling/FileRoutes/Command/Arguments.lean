import FileRoutes.Path

/-!
# The arguments of the command

The command has two subcommands: one prints the configuration, the other shows it as a tree.
Before and after the name of the subcommand stand **arguments**: switches, which stand alone, and
settings, which take a value. An argument has a long form after two hyphens and most have a short
form after one.

A value follows its setting as the next word, or is attached: after an equals sign, or directly
after the short form. A word that starts with a hyphen is no value, unless it is the hyphen alone
or is attached. Short forms may be bundled, the last of them with a value. Two hyphens end the
arguments, and since no word may stand after them, nothing follows.

Every argument may be given once for each place before and after the subcommand, except that
patterns to ignore add up. Asking for help or for the version ends the reading where it is found.

The switches for more and for less output are read, and checked against each other, but no log is
kept, so they change nothing else. A subcommand that watches the routes directory and compiles again
after every change is left out: each run compiles once.
-/

namespace FileRoutes.Command

/-- An argument that stands alone. -/
inductive Switch where
  | verbose
  | quiet
  | help
  | version
  | pretty
deriving DecidableEq, Repr

/-- An argument that takes a value. -/
inductive Setting where
  | config
  | root
  | routes
  | ignore
  | out
deriving DecidableEq, Repr

/-- An argument. -/
inductive Argument where
  | switch (s : Switch)
  | setting (s : Setting)
deriving DecidableEq, Repr

/-- Where an argument stands: before the subcommand, or after one of them. -/
inductive Place where
  | front
  | build
  | tree
deriving DecidableEq, Repr

/-- The long form of a switch, after two hyphens. -/
def Switch.long : Switch → String
  | .verbose => "verbose"
  | .quiet => "quiet"
  | .help => "help"
  | .version => "version"
  | .pretty => "pretty"

/-- The long form of a setting, after two hyphens. -/
def Setting.long : Setting → String
  | .config => "config"
  | .root => "root"
  | .routes => "routes"
  | .ignore => "ignore"
  | .out => "out"

/-- The long form of an argument, after two hyphens. -/
def Argument.long : Argument → String
  | .switch s => s.long
  | .setting s => s.long

/-- The short form of an argument, after one hyphen, if it has one. -/
def Argument.short? : Argument → Option Char
  | .switch .verbose => some 'v'
  | .switch .quiet => some 'q'
  | .switch .help => some 'h'
  | .switch .version => some 'V'
  | .switch .pretty => none
  | .setting .config => some 'c'
  | .setting .root => some 'r'
  | .setting .routes => none
  | .setting .ignore => some 'i'
  | .setting .out => some 'o'

/-- The arguments that may stand at a place. -/
def Place.arguments : Place → List Argument
  | .front => [.switch .verbose, .switch .quiet, .switch .help, .switch .version]
  | .tree =>
    [.switch .verbose, .switch .quiet, .switch .help, .setting .config, .setting .root,
      .setting .routes, .setting .ignore]
  | .build =>
    [.switch .verbose, .switch .quiet, .switch .help, .setting .config, .setting .root,
      .setting .routes, .setting .ignore, .setting .out, .switch .pretty]

/-- The argument with a long form, at a place. -/
def ofLong? (place : Place) (long : String) : Option Argument :=
  place.arguments.find? fun a => a.long = long

/-- The argument with a short form, at a place. -/
def ofShort? (place : Place) (short : Char) : Option Argument :=
  place.arguments.find? fun a => a.short? = some short

/-- A setting whose value is a path, which cannot be empty. -/
def Setting.isPath : Setting → Bool
  | .config | .root | .out => true
  | .routes | .ignore => false

/-- What is wrong with the arguments. -/
inductive Misuse where
  /-- No such argument or subcommand, or a word too many. -/
  | unexpected (word : String)
  /-- A setting without a value. -/
  | missingValue (s : Setting)
  /-- A path that is empty. -/
  | emptyPath (s : Setting)
  /-- A switch with a value. -/
  | needlessValue (s : Switch)
  /-- A switch given twice. -/
  | repeatedSwitch (s : Switch)
  /-- A setting given twice. -/
  | repeatedSetting (s : Setting)
  /-- Both more and less output are asked for. -/
  | contradiction
  /-- No subcommand. -/
  | noSubcommand
deriving DecidableEq, Repr

/-- What ends the reading of arguments early. -/
inductive Stop where
  | help
  | version
  | misuse (m : Misuse)
deriving DecidableEq, Repr

/-- The arguments read at one place. -/
structure Given where
  verbose : Bool := false
  quiet : Bool := false
  pretty : Bool := false
  config : Option Path := none
  root : Option Path := none
  routes : Option String := none
  ignored : List String := []
  out : Option Path := none
deriving DecidableEq, Repr

namespace Given

/-- Takes a switch, once. -/
def turnOn (g : Given) (s : Switch) : Except Stop Given :=
  match s with
  | .help => .error .help
  | .version => .error .version
  | .verbose =>
    if g.verbose then .error (.misuse (.repeatedSwitch s)) else .ok { g with verbose := true }
  | .quiet =>
    if g.quiet then .error (.misuse (.repeatedSwitch s)) else .ok { g with quiet := true }
  | .pretty =>
    if g.pretty then .error (.misuse (.repeatedSwitch s)) else .ok { g with pretty := true }

/-- Takes the value of a setting that can be given once. -/
def takeOnce {α : Type} (s : Setting) (old : Option α) (set : Given) : Except Stop Given :=
  if old.isSome then .error (.misuse (.repeatedSetting s)) else .ok set

/-- Takes the value of a setting. -/
def give (g : Given) (s : Setting) (value : String) : Except Stop Given :=
  if s.isPath && value.isEmpty then .error (.misuse (.emptyPath s))
  else
    match s with
    | .config => takeOnce s g.config { g with config := some ⟨value⟩ }
    | .root => takeOnce s g.root { g with root := some ⟨value⟩ }
    | .routes => takeOnce s g.routes { g with routes := some value }
    | .out => takeOnce s g.out { g with out := some ⟨value⟩ }
    | .ignore => .ok { g with ignored := g.ignored ++ [value] }

/-- More and less output are not asked for at one place. -/
def consistent (g : Given) : Except Stop Unit :=
  if g.verbose && g.quiet then .error (.misuse .contradiction) else .ok ()

end Given

/-! ### Words -/

/-- A word that may be a value or the name of a subcommand. -/
def isPlain (word : String) : Bool :=
  word = "-" || !(['-'].isPrefixOf word.toList)

/-- Reads bundled short forms. What is left over is a setting whose value is the next word. -/
def readShorts (place : Place) (g : Given) : List Char → Except Stop (Given × Option Setting)
  | [] => .ok (g, none)
  | c :: rest =>
    match ofShort? place c with
    | none => .error (.misuse (.unexpected (String.ofList ['-', c])))
    | some (.switch s) => do
      let g ← g.turnOn s
      readShorts place g rest
    | some (.setting s) =>
      match rest with
      | [] => .ok (g, some s)
      | '=' :: value => do return (← g.give s (String.ofList value), none)
      | value => do return (← g.give s (String.ofList value), none)

/-- Reads a long form, which may have a value attached. -/
def readLong (place : Place) (g : Given) (word : List Char) :
    Except Stop (Given × Option Setting) :=
  let name := String.ofList (word.takeWhile (· ≠ '='))
  let value? := (word.dropWhile (· ≠ '=')).tail?.map String.ofList
  match ofLong? place name, value? with
  | none, _ => .error (.misuse (.unexpected ("--" ++ name)))
  | some (.switch s), none => do return (← g.turnOn s, none)
  | some (.switch s), some _ => .error (.misuse (.needlessValue s))
  | some (.setting s), none => .ok (g, some s)
  | some (.setting s), some value => do return (← g.give s value, none)

/-- Reads one word that starts with a hyphen and is more than that. -/
def readWord (place : Place) (g : Given) (word : String) :
    Except Stop (Given × Option Setting) :=
  match ['-', '-'].isPrefixOf? word.toList with
  | some long => readLong place g long
  | none => readShorts place g (word.toList.drop 1)

/-- Reads the arguments at one place, up to a plain word, and leaves the words from that on. -/
def readPlace (place : Place) (g : Given) : List String → Except Stop (Given × List String)
  | [] => .ok (g, [])
  | word :: rest =>
    if word = "--" then
      match rest with
      | [] => .ok (g, [])
      | extra :: _ => .error (.misuse (.unexpected extra))
    else if isPlain word then .ok (g, word :: rest)
    else do
      match ← readWord place g word, rest with
      | (g, none), rest => readPlace place g rest
      | (_, some s), [] => .error (.misuse (.missingValue s))
      | (g, some s), value :: rest =>
        if isPlain value then do
          let g ← g.give s value
          readPlace place g rest
        else .error (.misuse (.missingValue s))

/-! ### The whole line -/

/-- What the command is to do. -/
inductive Request where
  /-- Print the configuration, or write it to a file. -/
  | build (given : Given)
  /-- Show the configuration as a tree. -/
  | tree (given : Given)
deriving DecidableEq, Repr

/-- Reads the arguments after a subcommand. -/
def readSubcommand (place : Place) (words : List String) : Except Stop Given := do
  match ← readPlace place {} words with
  | (g, []) =>
    g.consistent
    return g
  | (_, extra :: _) => .error (.misuse (.unexpected extra))

/-- Reads what stands after the subcommand that asks for help: at most the name of a
subcommand. -/
def readHelp : List String → Stop
  | [] | ["build"] | ["tree"] | ["help"] => .help
  | word :: _ => .misuse (.unexpected word)

/-- Reads a command line. -/
def read (words : List String) : Except Stop Request := do
  let (front, rest) ← readPlace .front {} words
  match rest with
  | [] => .error (.misuse .noSubcommand)
  | "build" :: rest =>
    let g ← readSubcommand .build rest
    front.consistent
    return .build g
  | "tree" :: rest =>
    let g ← readSubcommand .tree rest
    front.consistent
    return .tree g
  | "help" :: rest => .error (readHelp rest)
  | word :: _ => .error (.misuse (.unexpected word))

end FileRoutes.Command
