import FileRoutes.Call
import FileRoutes.Glob.Pattern
import FileRoutes.Location
import FileRoutes.Text.Quoted
import FileRoutes.Toml.Item

/-!
# What can go wrong

A **fault** is the reason why a configuration could not be compiled, loaded or written. It may
have a cause, which may have one of its own: the chain of a fault lists the messages from the
outermost to the last cause.
-/

namespace FileRoutes

/-- Why the operating system refuses a call on a path. -/
inductive Refusal where
  | notFound
  | alreadyThere
  | notADirectory
  | isADirectory
  | nameTooLong
  /-- The path holds a character that no path of the system can hold. -/
  | impossiblePath
  /-- The contents of the file are not UTF-8. -/
  | notText
  /-- The system refused in words of its own. -/
  | other (message : String)
deriving DecidableEq, Repr

/-- The refusal in words. -/
def Refusal.message : Refusal → String
  | .notFound => "No such file or directory (os error 2)"
  | .alreadyThere => "File exists (os error 17)"
  | .notADirectory => "Not a directory (os error 20)"
  | .isADirectory => "Is a directory (os error 21)"
  | .nameTooLong => "File name too long (os error 36)"
  | .impossiblePath => "file name contained an unexpected NUL byte"
  | .notText => "stream did not contain valid UTF-8"
  | .other message => message

/-- Why something could not be done. -/
inductive Fault where
  /-- An ignore pattern is malformed. -/
  | ignorePattern (pattern : String) (cause : Glob.PatternError)
  /-- A directory of the routes could not be listed. -/
  | routeDirectory (path : Path) (cause : Fault)
  /-- The directory for placeholder layouts could not be made. -/
  | layoutCache (cause : Fault)
  /-- A placeholder layout could not be written. -/
  | placeholder (cause : Fault)
  /-- No directory is stored at the location. -/
  | noDirectory (location : Location)
  /-- The directory that should take a file is not stored. -/
  | noParent (location : Location)
  /-- The operating system refused a call. -/
  | refused (kind : Call.Kind) (path : Path) (cause : Refusal)
  /-- A call that was set up to fail. -/
  | injected (kind : Call.Kind) (path : Path)
  /-- Directories nest more deeply than the scan was told to follow. -/
  | tooDeep (path : Path)
  /-- The options file is there but cannot be read. -/
  | configRead (path : Path) (cause : Refusal)
  /-- The options file holds no options. -/
  | configContents (path : Path) (cause : Toml.Mistake)
  /-- The configuration could not be written to its file. -/
  | output (path : Path) (cause : Refusal)
  /-- A refusal in the words of whoever supplied the layouts. -/
  | reported (message : String)
deriving DecidableEq, Repr

/-- A path in quotes. -/
def Path.quoted (p : Path) : String :=
  Text.quoted p.text

namespace Fault

/-- What was refused, in words. -/
def refusedMessage (path : Path) : Call.Kind → String
  | .list => "Failed to read directory: " ++ path.quoted
  | .probe => "Failed to check existence of " ++ path.quoted
  | .write => "Failed to write file: " ++ path.quoted
  | .makeDirectory => "Failed to create directory: " ++ path.quoted

/-- The sort of call in an injected fault. -/
def injectedWord : Call.Kind → String
  | .list => "list"
  | .probe => "exists"
  | .write => "write"
  | .makeDirectory => "mkdir"

/-- The fault in words, without its cause. -/
def message : Fault → String
  | ignorePattern pattern _ => "Invalid ignore pattern: " ++ Text.quoted pattern
  | routeDirectory path _ => "Failed to scan route directory: " ++ path.quoted
  | layoutCache _ => "Failed to create layout cache directory"
  | placeholder _ => "Failed to write placeholder layout"
  | noDirectory location => "No such directory: " ++ Text.quoted location.text
  | noParent location => "Parent directory does not exist: " ++ Text.quoted location.text
  | refused kind path _ => refusedMessage path kind
  | injected kind path => "injected " ++ injectedWord kind ++ " fault: " ++ path.text
  | tooDeep path => "Directories nest too deeply: " ++ path.quoted
  | configRead path _ => "Failed to read config file: " ++ path.quoted
  | configContents path _ => "Failed to parse config file: " ++ path.quoted
  | output path _ => "Failed to write route config: " ++ path.quoted
  | reported message => message

/-- The messages of the fault and of its causes, the outermost first. -/
def chain : Fault → List String
  | ignorePattern pattern cause => [message (ignorePattern pattern cause), cause.message]
  | routeDirectory path cause => message (routeDirectory path cause) :: cause.chain
  | layoutCache cause => message (layoutCache cause) :: cause.chain
  | placeholder cause => message (placeholder cause) :: cause.chain
  | refused kind path cause => [message (refused kind path cause), cause.message]
  | configRead path cause => [message (configRead path cause), cause.message]
  | configContents path cause => [message (configContents path cause), cause.message]
  | output path cause => [message (output path cause), cause.message]
  | noDirectory location => [message (noDirectory location)]
  | noParent location => [message (noParent location)]
  | injected kind path => [message (injected kind path)]
  | tooDeep path => [message (tooDeep path)]
  | reported message => [message]

/-- The chain opens with the message of the fault itself. -/
theorem head?_chain (f : Fault) : f.chain.head? = some f.message := by
  cases f <;> rfl

end Fault

end FileRoutes
