/-!
# Route configuration entries

The configuration that a router reads is a list of **entries**. An entry names a file to show; a
path makes it a route, the index flag makes it the page shown at its parent's address, and without
either it is a layout around its children.

A walk visits an entry before its children and the children in order, and keeps the entries still
to be visited on a stack. The preorder is the same visit as a recursion on the entry.
-/

namespace FileRoutes

/-- An entry of the route configuration. -/
structure Entry where
  /-- The address of the entry below that of its parent, if it has one of its own. -/
  path : Option String
  /-- The reference of the file to show. -/
  file : String
  /-- The entry is shown at its parent's address. -/
  isIndex : Bool
  /-- The entries inside. -/
  children : List Entry
deriving Repr, Inhabited

namespace Entry

/-! ### Equality -/

mutual

/-- Two entries are compared entry by entry. -/
def decEq : (a b : Entry) → Decidable (a = b)
  | ⟨path, file, isIndex, children⟩, ⟨path', file', isIndex', children'⟩ =>
    if h : path = path' ∧ file = file' ∧ isIndex = isIndex' then
      match decEqAll children children' with
      | .isTrue hc => .isTrue (by simp [h, hc])
      | .isFalse hc => .isFalse (by simp [hc])
    else .isFalse (by simp only [mk.injEq]; grind)

/-- Two lists of entries are compared entry by entry. -/
def decEqAll : (es fs : List Entry) → Decidable (es = fs)
  | [], [] => .isTrue rfl
  | [], _ :: _ => .isFalse (by simp)
  | _ :: _, [] => .isFalse (by simp)
  | e :: es, f :: fs =>
    match decEq e f, decEqAll es fs with
    | .isTrue h, .isTrue hs => .isTrue (by simp [h, hs])
    | .isFalse h, _ => .isFalse (by simp [h])
    | _, .isFalse hs => .isFalse (by simp [hs])

end

instance : DecidableEq Entry := decEq

/-! ### Making entries -/

/-- The page shown at its parent's address. -/
def index (file : String) : Entry :=
  ⟨none, file, true, []⟩

/-- A layout around `children`. -/
def layout (file : String) (children : List Entry) : Entry :=
  ⟨none, file, false, children⟩

/-- A route at `path` around `children`. -/
def route (path file : String) (children : List Entry) : Entry :=
  ⟨some path, file, false, children⟩

/-- An entry without an address of its own that is no index. -/
def isLayout (e : Entry) : Bool :=
  e.path.isNone && !e.isIndex

/-! ### Size -/

mutual

/-- The number of entries in an entry, itself included. -/
def size : Entry → Nat
  | ⟨_, _, _, children⟩ => sizeAll children + 1

/-- The number of entries in a list of entries, nested ones included. -/
def sizeAll : List Entry → Nat
  | [] => 0
  | e :: rest => e.size + sizeAll rest

end

/-- An entry counts itself and the entries inside. -/
theorem size_eq (e : Entry) : e.size = sizeAll e.children + 1 := by
  cases e
  simp [size]

@[simp] theorem sizeAll_nil : sizeAll [] = 0 := by simp [sizeAll]

@[simp] theorem sizeAll_cons (e : Entry) (rest : List Entry) :
    sizeAll (e :: rest) = e.size + sizeAll rest := by simp [sizeAll]

/-- The sizes of two lists add up. -/
@[simp] theorem sizeAll_append (es fs : List Entry) :
    sizeAll (es ++ fs) = sizeAll es + sizeAll fs := by
  induction es with
  | nil => simp
  | cons e es ih => simp [ih, Nat.add_assoc]

/-! ### Walking -/

/-- Visits the entry on top of the stack, then its children, then the rest of the stack. -/
def walkStack : List Entry → List Entry
  | [] => []
  | e :: stack => e :: walkStack (e.children ++ stack)
termination_by stack => sizeAll stack
decreasing_by simp [size_eq]

/-- The entry and all entries inside, each before its children. -/
def walk (e : Entry) : List Entry :=
  walkStack [e]

/-- The number of entries of a configuration, nested ones included. -/
def count (entries : List Entry) : Nat :=
  (entries.flatMap walk).length

mutual

/-- The entry, then the preorder of its children. -/
def preorder : Entry → List Entry
  | ⟨path, file, isIndex, children⟩ => ⟨path, file, isIndex, children⟩ :: preorderAll children

/-- The preorders of a list of entries, in order. -/
def preorderAll : List Entry → List Entry
  | [] => []
  | e :: rest => e.preorder ++ preorderAll rest

end

/-- The preorder opens with the entry itself. -/
theorem preorder_eq (e : Entry) : e.preorder = e :: preorderAll e.children := by
  cases e
  simp [preorder]

@[simp] theorem preorderAll_nil : preorderAll [] = [] := by simp [preorderAll]

@[simp] theorem preorderAll_cons (e : Entry) (rest : List Entry) :
    preorderAll (e :: rest) = e.preorder ++ preorderAll rest := by simp [preorderAll]

/-- The preorders of two lists follow each other. -/
@[simp] theorem preorderAll_append (es fs : List Entry) :
    preorderAll (es ++ fs) = preorderAll es ++ preorderAll fs := by
  induction es with
  | nil => simp
  | cons e es ih => simp [ih]

/-- A walk visits the entries on the stack in preorder. -/
theorem walkStack_eq_preorderAll (stack : List Entry) : walkStack stack = preorderAll stack := by
  induction stack using walkStack.induct with
  | case1 => simp [walkStack]
  | case2 e stack ih => simp [walkStack, ih, preorder_eq]

/-- Walking through the entries of a configuration visits them in preorder. -/
theorem flatMap_walk (entries : List Entry) : entries.flatMap walk = preorderAll entries := by
  induction entries with
  | nil => simp
  | cons e rest ih =>
    rw [List.flatMap_cons, ih, walk, walkStack_eq_preorderAll, preorderAll_cons, preorderAll_cons,
      preorderAll_nil, List.append_nil]

end Entry

end FileRoutes
