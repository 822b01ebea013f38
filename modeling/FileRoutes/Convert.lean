import FileRoutes.Entry.Basic
import FileRoutes.Partition

/-!
# From the route tree to the configuration

Each level of the tree becomes a list of entries. A layout becomes a layout entry around what it
wraps, an index page an index entry, and a not-found page a route that closes its level. A
directory becomes a route whose file is that of its layout or, failing that, of its index page,
around what is left of its children; a directory with neither leaves what is in it to the level
above. The dynamic directories of a directory are taken out: they stand beside its route at the
joined path, and inside them dynamic directories stay where they are.
-/

namespace FileRoutes

/-- The address of a directory below another. -/
def joinSegments (parent child : String) : String :=
  if parent = "" then child else parent ++ "/" ++ child

/-- The entry that a not-found page adds to the end of its level. -/
def notFoundRoute? (n : Node) : Option Entry :=
  if n.kind = .notFound then some (.route n.path n.file []) else none

mutual

/-- The entries of one level of the tree. -/
def convert (nodes : List Node) : List Entry :=
  convertEach nodes ++ nodes.filterMap notFoundRoute?
termination_by (Node.sizeAll nodes, 2)

/-- The entries of the nodes of a level in order, without those that close the level. -/
def convertEach : List Node → List Entry
  | [] => []
  | n :: rest => convertNode n ++ convertEach rest
termination_by nodes => (Node.sizeAll nodes, 1)
decreasing_by all_goals simp [Prod.lex_def, Node.size_eq]; try omega

/-- The entries of one node where it stands. -/
def convertNode (n : Node) : List Entry :=
  match n.kind with
  | .layout => [.layout n.file (convert n.children)]
  | .page => if n.isIndex then [.index n.file] else []
  | .notFound => []
  | .route =>
    resolve n.path (.directory n.children) ++ hoist n.path (Partition.directory n.children).dynamic
termination_by (n.size, 0)
decreasing_by
  · simp [Prod.lex_def, Node.size_eq]
  · simp [Prod.lex_def, Node.size_eq]
  · have := Partition.size_directory n.children
    simp only [Partition.size] at this
    simp only [Prod.lex_def, Node.size_eq]
    omega

/-- The entries of a directory at `path` with the given children, without those taken out. -/
def resolve (path : String) : Partition → List Entry
  | ⟨some layout, _, _, other⟩ => [.route path layout.file (convert (layout.children ++ other))]
  | ⟨none, some index, _, other⟩ => [.route path index.file (convert other)]
  | ⟨none, none, _, other⟩ => convert other
termination_by p => (p.size, 3)
decreasing_by
  all_goals simp [Prod.lex_def, Partition.size, Partition.optionSize, Node.size_eq]; try omega

/-- The entries of dynamic directories that stand beside the directory at `parent`. -/
def hoist (parent : String) : List Node → List Entry
  | [] => []
  | n :: rest =>
    resolve (joinSegments parent n.path) (.hoisted n.children) ++ hoist parent rest
termination_by nodes => (Node.sizeAll nodes, 0)
decreasing_by all_goals simp [Prod.lex_def, Node.size_eq]; try omega

end

end FileRoutes
