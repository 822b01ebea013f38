import FileRoutes.Fault
import FileRoutes.Text.Blank
import FileRoutes.Toml.Reader

/-!
# Options

The options say where the application is, which directory in it holds the routes, which entries to
pass over and where placeholder layouts are kept. They can be kept in a TOML file: a name that is
missing there has its default, an unknown one is passed over, and a known one has to have a value
of its type. A file that is not there or is blank gives the defaults.
-/

namespace FileRoutes

/-- The options of the compiler. -/
structure Options where
  /-- The root of the application. -/
  root : Path := ⟨"./app"⟩
  /-- The directory of the routes, seen from the root. -/
  routes : String := "routes"
  /-- The patterns of entries to pass over, matched against paths seen from the root. -/
  ignored : List String := []
  /-- The directory of placeholder layouts, seen from the root. -/
  layoutCache : String := ".react-router/layouts"
deriving Repr, DecidableEq, Inhabited

namespace Options

/-- The path of the routes directory. -/
def routesPath (o : Options) : Path :=
  o.root.join o.routes

/-- The path of the directory of placeholder layouts. -/
def layoutCachePath (o : Options) : Path :=
  o.root.join o.layoutCache

/-- Every option has its default; the root counts by its components. -/
def isDefault (o : Options) : Bool :=
  let defaults : Options := {}
  o.root.SpelledAlike defaults.root && o.routes = defaults.routes &&
    o.ignored = defaults.ignored && o.layoutCache = defaults.layoutCache

/-! ### The options file -/

/-- The name of the options file in the working directory. -/
def fileName : String := "jam-routes.toml"

/-- What is found where an options file may be. -/
inductive Source where
  /-- Nothing is there. -/
  | absent
  /-- Something is there that cannot be read. -/
  | unreadable (cause : Refusal)
  /-- A text. -/
  | text (contents : String)
deriving Repr, DecidableEq

/-- A string option. -/
def stringOption (document : Toml.Members) (name default : String) :
    Except Toml.Mistake String :=
  match document.lookup name with
  | none => .ok default
  | some (.string text) => .ok text
  | some _ => .error (.wrongType name)

/-- The texts of strings. -/
def strings? : List Toml.Item → Option (List String)
  | [] => some []
  | .string text :: rest => (strings? rest).map (text :: ·)
  | _ :: _ => none

/-- An option that is a list of strings. -/
def stringsOption (document : Toml.Members) (name : String) (default : List String) :
    Except Toml.Mistake (List String) :=
  match document.lookup name with
  | none => .ok default
  | some (.array items) =>
    match strings? items with
    | some texts => .ok texts
    | none => .error (.wrongType name)
  | some _ => .error (.wrongType name)

/-- The options in a TOML document. -/
def ofDocument (document : Toml.Members) : Except Toml.Mistake Options := do
  let defaults : Options := {}
  let root ← stringOption document "root_directory" defaults.root.text
  let routes ← stringOption document "routes_directory" defaults.routes
  let ignored ← stringsOption document "ignored_file_patterns" defaults.ignored
  let layoutCache ← stringOption document "layout_cache_directory" defaults.layoutCache
  return ⟨⟨root⟩, routes, ignored, layoutCache⟩

/-- The options in the text of an options file. -/
def ofText (text : String) : Except Toml.Mistake Options :=
  if Text.isBlank text then .ok {} else Toml.read text >>= ofDocument

/-- The options that the file at `path` gives. -/
def load (path : Path) : Source → Except Fault Options
  | .absent => .ok {}
  | .unreadable cause => .error (.configRead path cause)
  | .text contents =>
    match ofText contents with
    | .ok o => .ok o
    | .error mistake => .error (.configContents path mistake)

end Options

end FileRoutes
