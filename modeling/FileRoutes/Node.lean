import FileRoutes.Segment
import FileRoutes.StableSort

/-!
# The route tree

Scanning a routes directory gives a tree of **nodes**, one for each file or directory that
contributes to the routes. A node of a directory holds the nodes found in it, and a layout holds
what it wraps.

Siblings have an order of precedence, which is the order in which a router tries them: directories
before files, static segments before dynamic ones, and by segment among directories of one sort.
Everything that is not a directory is of equal rank, so that sorting keeps the listing order there.
-/

namespace FileRoutes

/-- What a node was made from. -/
inductive NodeKind where
  /-- A page file. -/
  | page
  /-- A layout file, or a placeholder for one. -/
  | layout
  /-- A directory. -/
  | route
  /-- A not-found file. -/
  | notFound
deriving DecidableEq, Repr, Inhabited

/-- A contributing file or directory. -/
structure Node where
  /-- What the node was made from. -/
  kind : NodeKind
  /-- What the node adds to the address: empty for pages and layouts. -/
  path : String
  /-- The reference of the file behind the node: empty for directories. -/
  file : String
  /-- The segment matches more than one text. -/
  isDynamic : Bool
  /-- The page is the index of its directory. -/
  isIndex : Bool
  /-- The nodes inside. -/
  children : List Node
deriving Repr, Inhabited

namespace Node

/-! ### Equality -/

mutual

/-- Two trees are compared node by node. -/
def decEq : (a b : Node) → Decidable (a = b)
  | ⟨kind, path, file, isDynamic, isIndex, children⟩,
    ⟨kind', path', file', isDynamic', isIndex', children'⟩ =>
    if h : kind = kind' ∧ path = path' ∧ file = file' ∧ isDynamic = isDynamic' ∧
        isIndex = isIndex' then
      match decEqAll children children' with
      | .isTrue hc => .isTrue (by simp [h, hc])
      | .isFalse hc => .isFalse (by simp [hc])
    else .isFalse (by simp only [mk.injEq]; grind)

/-- Two lists of trees are compared tree by tree. -/
def decEqAll : (ns ms : List Node) → Decidable (ns = ms)
  | [], [] => .isTrue rfl
  | [], _ :: _ => .isFalse (by simp)
  | _ :: _, [] => .isFalse (by simp)
  | n :: ns, m :: ms =>
    match decEq n m, decEqAll ns ms with
    | .isTrue h, .isTrue hs => .isTrue (by simp [h, hs])
    | .isFalse h, _ => .isFalse (by simp [h])
    | _, .isFalse hs => .isFalse (by simp [hs])

end

instance : DecidableEq Node := decEq

/-! ### Making nodes -/

/-- The index page of a directory. -/
def indexPage (file : String) : Node :=
  ⟨.page, "", file, false, true, []⟩

/-- A layout around `children`. -/
def layout (file : String) (children : List Node) : Node :=
  ⟨.layout, "", file, false, false, children⟩

/-- The page for addresses that nothing else at its level matches. -/
def notFound (file : String) : Node :=
  ⟨.notFound, "*", file, false, false, []⟩

/-- A directory that adds the segment `path`. -/
def route (path : String) (isDynamic : Bool) (children : List Node) : Node :=
  ⟨.route, path, "", isDynamic, false, children⟩

/-- The directory called `name`. -/
def folder (name : String) (children : List Node) : Node :=
  route (folderSegment name).1 (folderSegment name).2 children

/-- The node is a directory. -/
def isRoute (n : Node) : Bool := n.kind = .route

/-- The node is a layout. -/
def isLayout (n : Node) : Bool := n.kind = .layout

/-- The node is the index page of its directory. -/
def isIndexPage (n : Node) : Bool := n.kind = .page && n.isIndex

theorem isRoute_iff {n : Node} : n.isRoute = true ↔ n.kind = .route :=
  decide_eq_true_iff

theorem isLayout_iff {n : Node} : n.isLayout = true ↔ n.kind = .layout :=
  decide_eq_true_iff

theorem isIndexPage_iff {n : Node} :
    n.isIndexPage = true ↔ n.kind = .page ∧ n.isIndex = true := by
  simp [isIndexPage]

mutual

/-- The number of nodes in a tree. -/
def size : Node → Nat
  | ⟨_, _, _, _, _, children⟩ => sizeAll children + 1

/-- The number of nodes in a list of trees. -/
def sizeAll : List Node → Nat
  | [] => 0
  | n :: rest => n.size + sizeAll rest

end

/-- A tree has its root and the nodes inside. -/
theorem size_eq (n : Node) : n.size = sizeAll n.children + 1 := by
  cases n
  simp [size]

@[simp] theorem sizeAll_nil : sizeAll [] = 0 := by simp [sizeAll]

@[simp] theorem sizeAll_cons (n : Node) (rest : List Node) :
    sizeAll (n :: rest) = n.size + sizeAll rest := by simp [sizeAll]

/-- The sizes of two lists add up. -/
@[simp] theorem sizeAll_append (ns ms : List Node) :
    sizeAll (ns ++ ms) = sizeAll ns + sizeAll ms := by
  induction ns with
  | nil => simp
  | cons n ns ih => simp [ih, Nat.add_assoc]

/-! ### Precedence -/

/-- How two siblings compare in precedence. -/
def precedence (a b : Node) : Ordering :=
  match a.isRoute, b.isRoute with
  | false, false => .eq
  | false, true => .gt
  | true, false => .lt
  | true, true => (compare a.isDynamic b.isDynamic).then (compare a.path b.path)

/-- The first sibling may stand before the second. -/
def mayPrecede (a b : Node) : Bool :=
  (precedence a b).isLE

/-- Siblings in order of precedence, those of equal rank in their given order. -/
def sortSiblings (siblings : List Node) : List Node :=
  stableSort mayPrecede siblings

/-- Sorting loses and invents nothing. -/
theorem sortSiblings_perm (siblings : List Node) : (sortSiblings siblings).Perm siblings :=
  stableSort_perm mayPrecede siblings

end Node

end FileRoutes
