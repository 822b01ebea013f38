import FileRoutes.Ignore
import FileRoutes.Node
import FileRoutes.Placeholder

/-!
# Scanning the routes directory

A scan turns a directory of routes into the nodes of its tree. It lists the directory, passes over
ignored entries, and scans every directory in it as an independent job. The nodes found come in
listing order: those of a private directory directly, those of any other inside its node. Then
they are put in order of precedence and wrapped: in the layout of the directory if it has one, the
last one listed if there are several, and otherwise in a placeholder, unless there is nothing to
wrap or a layout among the nodes already.

Files are referred to by their path seen from the root of the application.
-/

namespace FileRoutes

/-- The routes directory as paths below the root are written: with slashes only, without a `./` in
front and without slashes at the ends. -/
def startDirectory (routes : String) : String :=
  let slashed := routes.toList.map fun c => if c = '\\' then '/' else c
  let below := (['.', '/'].isPrefixOf? slashed).getD slashed
  String.ofList (Text.dropBothWhile Text.isSlash below)

/-- The path of an entry of the directory at `directory`, both seen from the root. -/
def entryPath (directory name : String) : String :=
  if directory = "" then name else directory ++ "/" ++ name

/-- The reference to a file at a path seen from the root. -/
def fileReference (path : String) : String :=
  "./" ++ path

/-- The path of a directory below the routes directory `start`. -/
def routeDirectory (start directory : String) : String :=
  match start.toList.isPrefixOf? directory.toList with
  | some below => String.ofList (below.dropWhile Text.isSlash)
  | none => directory

namespace Scan

/-- What a scan goes by. -/
structure Setting where
  /-- The root of the application. -/
  root : Path
  /-- The routes directory, seen from the root. -/
  start : String
  /-- The entries to pass over. -/
  ignored : IgnoreSet
  /-- Where layouts come from for directories that have none. -/
  layouts : LayoutSource (List Node)

/-- What an entry of a directory is to the scan. -/
inductive Finding where
  /-- A file that gives a node. -/
  | node (n : Node)
  /-- The layout of the directory, by its path. -/
  | layout (path : String)
  /-- A directory to scan, by its name and its path. -/
  | directory (name path : String)
deriving Repr, DecidableEq

/-- What a file is to the scan: only files with a meaning matter. -/
def findingOfFile? (name path : String) : Option Finding :=
  match Convention.ofFileName? name with
  | some .layout => some (.layout path)
  | some .page => some (.node (.indexPage (fileReference path)))
  | some .notFound => some (.node (.notFound (fileReference path)))
  | none => none

/-- What an entry of `directory` is to the scan, if anything. -/
def finding? (ignored : IgnoreSet) (directory : String) (e : Listed) : Option Finding :=
  let path := entryPath directory e.name
  if ignored.ignores e.isDirectory path then none
  else if e.isDirectory then some (.directory e.name path)
  else findingOfFile? e.name path

/-- The path of the layout of a directory: the last one found. -/
def layoutPath? (findings : List Finding) : Option String :=
  (findings.filterMap fun
    | .layout path => some path
    | _ => none).getLast?

/-- The paths of the directories found. -/
def directoryPaths (findings : List Finding) : List String :=
  findings.filterMap fun
    | .directory _ path => some path
    | _ => none

/-- The nodes that a directory called `name` adds to the one it is in. -/
def nodesOfDirectory (name : String) (inside : List Node) : List Node :=
  if isPrivate name then inside else [.folder name inside]

/-- The nodes of what was found, in order, given the nodes inside each directory found. -/
def nodesOf : List Finding → List (List Node) → List Node
  | [], _ => []
  | .node n :: rest, scanned => n :: nodesOf rest scanned
  | .layout _ :: rest, scanned => nodesOf rest scanned
  | .directory name _ :: rest, inside :: scanned =>
    nodesOfDirectory name inside ++ nodesOf rest scanned
  | .directory _ _ :: rest, [] => nodesOf rest []

/-- The nodes of a directory are to be wrapped in a placeholder. -/
def needsPlaceholder (nodes : List Node) : Bool :=
  !nodes.isEmpty && !nodes.any Node.isLayout

/-- Wraps the nodes of `directory` in its layout, or in a placeholder if they need one. -/
def wrap (setting : Setting) (directory : String) (layout? : Option String) (nodes : List Node) :
    Job (List Node) :=
  match layout? with
  | some path => .done (.ok [.layout (fileReference path) nodes])
  | none =>
    if needsPlaceholder nodes then
      setting.layouts (routeDirectory setting.start directory) fun
        | .ok file => .done (.ok [.layout file nodes])
        | .error f => .done (.error f)
    else .done (.ok nodes)

/-- Scans `directory` and what is in it, at most `depth` levels of directories. -/
def directory (setting : Setting) : (depth : Nat) → (directory : String) → Job (List Node)
  | 0, dir => .done (.error (.tooDeep (setting.root.join dir)))
  | depth + 1, dir =>
    .call (.list (setting.root.join dir)) fun
      | .error f => .done (.error (.routeDirectory (setting.root.join dir) f))
      | .ok listing =>
        let findings := listing.filterMap (finding? setting.ignored dir)
        .fork ((directoryPaths findings).map (directory setting depth)) fun scanned =>
          wrap setting dir (layoutPath? findings) (Node.sortSiblings (nodesOf findings scanned))

/-- Scans the routes directory. -/
def routes (setting : Setting) (depth : Nat) : Job (List Node) :=
  directory setting depth setting.start

end Scan

end FileRoutes
