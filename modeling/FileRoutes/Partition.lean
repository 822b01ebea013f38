import FileRoutes.Node

/-!
# The children of a directory by role

The entry of a directory depends on what its children are to it. One of them may be its layout; if
no child is a layout, one may be its index page; dynamic directories may be taken out to stand
beside it; and all others stay inside. Each child has exactly one of these roles.
-/

namespace FileRoutes

/-- The children of a directory, by role. -/
structure Partition where
  /-- The first layout. -/
  layout : Option Node := none
  /-- The first index page, if no child is a layout. -/
  index : Option Node := none
  /-- The dynamic directories, if they are to be taken out. -/
  dynamic : List Node := []
  /-- All other children. -/
  other : List Node := []
deriving Repr, DecidableEq

namespace Partition

/-- Gives one more child its role. `hasLayout` says whether some child, seen or not, is a layout,
and `hoist` whether dynamic directories are taken out. -/
def add (hasLayout hoist : Bool) (p : Partition) (child : Node) : Partition :=
  if child.isLayout && p.layout.isNone then { p with layout := some child }
  else if !hasLayout && child.isIndexPage && p.index.isNone then { p with index := some child }
  else if hoist && child.isRoute && child.isDynamic then
    { p with dynamic := p.dynamic ++ [child] }
  else { p with other := p.other ++ [child] }

/-- The children by role, dynamic directories taken out if `hoist`. -/
def split (hoist : Bool) (children : List Node) : Partition :=
  children.foldl (add (children.any Node.isLayout) hoist) {}

/-- The children of a directory whose dynamic directories stand beside it. -/
def directory (children : List Node) : Partition :=
  split true children

/-- The children of a dynamic directory that was taken out itself: its dynamic directories stay
inside. -/
def hoisted (children : List Node) : Partition :=
  split false children

/-- The index pages that end up inside the layout of the directory. -/
def nestedIndexPages (p : Partition) : List Node :=
  p.other.filter fun n => p.layout.isSome && n.isIndexPage

/-! ### Size -/

/-- The number of nodes in an optional tree. -/
def optionSize (n? : Option Node) : Nat :=
  Node.sizeAll n?.toList

/-- The number of nodes in all groups. -/
def size (p : Partition) : Nat :=
  optionSize p.layout + optionSize p.index + Node.sizeAll p.dynamic + Node.sizeAll p.other

/-- A child keeps its nodes, whatever its role. -/
theorem size_add (hasLayout hoist : Bool) (p : Partition) (child : Node) :
    (p.add hasLayout hoist child).size = p.size + child.size := by
  unfold add
  split
  · next h =>
    have hl : p.layout = none := by simp_all
    simp [size, optionSize, hl]
    omega
  · split
    · next h =>
      have hi : p.index = none := by simp_all
      simp [size, optionSize, hi]
      omega
    · split <;> simp [size] <;> omega

/-- Sorting the children by role keeps their nodes. -/
theorem size_split (hoist : Bool) (children : List Node) :
    (split hoist children).size = Node.sizeAll children := by
  have key : ∀ (cs : List Node) (p : Partition),
      (cs.foldl (add (children.any Node.isLayout) hoist) p).size = p.size + Node.sizeAll cs := by
    intro cs
    induction cs with
    | nil => simp
    | cons c cs ih => intro p; simp [ih, size_add, Nat.add_assoc]
  simpa [split, size, optionSize] using key children {}

/-- The children of a directory by role keep their nodes. -/
@[simp] theorem size_directory (children : List Node) :
    (directory children).size = Node.sizeAll children :=
  size_split true children

/-- The children of a hoisted directory by role keep their nodes. -/
@[simp] theorem size_hoisted (children : List Node) :
    (hoisted children).size = Node.sizeAll children :=
  size_split false children

end Partition

end FileRoutes
