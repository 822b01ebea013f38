import FileRoutes.Convert
import FileRoutes.Options
import FileRoutes.Scan
import FileRoutes.Storage.Memory

/-!
# Compiling routes

Compiling reads the ignore patterns, scans the routes directory into a tree, and converts the tree
into the configuration. Only the scan calls the storage, and without valid patterns it does not
start.

The depth of a scan is bounded by what the storage can hold. In memory no directory lies deeper
than the deepest one stored or made for placeholders.

What is logged along the way is left out: it has no part in the result, in the calls or in the files
left behind.
-/

namespace FileRoutes

/-- The cache of placeholders that the options name. -/
def Options.cache (o : Options) : LayoutCache :=
  .inDirectory o.root o.layoutCache

/-- What a scan with these options goes by. -/
def Options.scanSetting (o : Options) (ignored : IgnoreSet) : Scan.Setting where
  root := o.root
  start := startDirectory o.routes
  ignored := ignored
  layouts := o.cache.source

/-- The job of building the route tree, in at most `depth` levels of directories. -/
def buildTree (o : Options) (depth : Nat) : Job (List Node) :=
  match IgnoreSet.ofTexts o.ignored with
  | .ok ignored => Scan.routes (o.scanSetting ignored) depth
  | .error f => .done (.error f)

/-- Compiles the routes with calls to a storage. -/
def compile {m : Type → Type} [Monad m] (storage : Storage m) (o : Options) (depth : Nat) :
    m (Except Fault (List Entry)) := do
  let tree ← (buildTree o depth).run storage
  return tree.map convert

namespace Memory

/-- More levels of directories than a scan in this memory can go through. -/
def scanDepth (m : Memory) (o : Options) : Nat :=
  max m.depth o.cache.path.location.names.length + 2

/-- Builds the route tree of a memory, which may gain placeholders. -/
def buildTree (m : Memory) (o : Options) : Except Fault (List Node) × Memory :=
  ((FileRoutes.buildTree o (m.scanDepth o)).run storage).run m

/-- Compiles the routes of a memory, which may gain placeholders. -/
def compile (m : Memory) (o : Options) : Except Fault (List Entry) × Memory :=
  (FileRoutes.compile storage o (m.scanDepth o)).run m

/-- Compiling the routes of a memory converts the route tree that is built of them. -/
theorem compile_eq (m : Memory) (o : Options) :
    m.compile o = ((m.buildTree o).1.map convert, (m.buildTree o).2) := rfl

end Memory

end FileRoutes
