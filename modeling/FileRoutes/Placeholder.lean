import FileRoutes.Job
import FileRoutes.Text.Trim

/-!
# Placeholder layouts

A directory with contents but no layout of its own is given a **placeholder**: a layout that only
shows what it wraps. Placeholders are kept in a cache directory, one file for each name, and are
written once: a file that is there is used as it is.

The name of a placeholder is the path of its directory below the routes directory with dots in
place of the separators and none in front, and that of the routes directory itself is `root`.
-/

namespace FileRoutes

/-- Gives the reference of a layout for the directory at a path below the routes directory, and
goes on with it. -/
abbrev LayoutSource (α : Type) := String → (Except Fault String → Job α) → Job α

/-- The name of the placeholder for the routes directory itself. -/
def rootPlaceholderName : String := "root"

/-- The name of the placeholder for the directory at `routeDirectory`. -/
def placeholderName (routeDirectory : String) : String :=
  let dotted := routeDirectory.toList.map fun c => if c = '/' ∨ c = '\\' then '.' else c
  match dotted.dropWhile (· = '.') with
  | [] => rootPlaceholderName
  | name => String.ofList name

/-- The contents of a placeholder. -/
def placeholderContents : String :=
  "import \x7b Outlet \x7d from \"react-router\";\n" ++
  "export default function Layout() \x7b\n" ++
  "\treturn <Outlet />;\n" ++
  "\x7d"

/-- The cache of placeholders: a directory seen from the root of the application. -/
structure LayoutCache where
  /-- The root of the application. -/
  root : Path
  /-- The directory, without slashes at the end. -/
  directory : String
deriving Repr, DecidableEq

namespace LayoutCache

/-- The cache in `directory`, seen from `root`. -/
def inDirectory (root : Path) (directory : String) : LayoutCache :=
  ⟨root, String.ofList (Text.dropEndWhile Text.isSlash directory.toList)⟩

/-- The path of the cache directory. -/
def path (cache : LayoutCache) : Path :=
  cache.root.join cache.directory

/-- The name of the file for the directory at `routeDirectory`. -/
def fileName (routeDirectory : String) : String :=
  placeholderName routeDirectory ++ ".layout.tsx"

/-- The path of the file for the directory at `routeDirectory`. -/
def filePath (cache : LayoutCache) (routeDirectory : String) : Path :=
  cache.path.join (fileName routeDirectory)

/-- The reference to the file for the directory at `routeDirectory`, seen from the root. -/
def reference (cache : LayoutCache) (routeDirectory : String) : String :=
  cache.directory ++ "/" ++ fileName routeDirectory

/-- Writes the placeholder unless it is there, and goes on with its reference. -/
def ensureFile {α : Type} (cache : LayoutCache) : LayoutSource α := fun routeDirectory next =>
  .call (.probe (cache.filePath routeDirectory)) fun
    | .error f => next (.error f)
    | .ok true => next (.ok (cache.reference routeDirectory))
    | .ok false =>
      .call (.write (cache.filePath routeDirectory) placeholderContents) fun
        | .error f => next (.error (.placeholder f))
        | .ok _ => next (.ok (cache.reference routeDirectory))

/-- The placeholder for a directory, written into the cache unless it is there. The cache is made
first if need be. -/
def source {α : Type} (cache : LayoutCache) : LayoutSource α := fun routeDirectory next =>
  .call (.probe cache.path) fun
    | .error f => next (.error f)
    | .ok true => cache.ensureFile routeDirectory next
    | .ok false =>
      .call (.makeDirectory cache.path) fun
        | .error f => next (.error (.layoutCache f))
        | .ok _ => cache.ensureFile routeDirectory next

end LayoutCache

end FileRoutes
