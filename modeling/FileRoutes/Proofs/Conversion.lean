import FileRoutes.Convert
import FileRoutes.Proofs.Roles

/-!
# The steps of the conversion

A route tree is converted by **levels**, lists of nodes that are converted side by side: each node
makes its entries in place, and the not-found pages close the level (`convert_eq`). What is inside
the nodes of a level makes further levels, namely what a layout wraps and what is left inside a
directory that is **resolved**, where it stands or taken out of the one that it was in. A resolved
directory has a sign or dissolves into what is left inside (`resolve_of_sign?_eq_some` and
`resolve_of_sign?_eq_none`).

What holds of the conversion of every list is proved along these steps (`convert_induction`): of a
level from its nodes, of a node by its kind, and of a resolved directory from the level inside it.
-/

namespace FileRoutes

/-! ### Levels -/

/-- What a not-found page adds to the end of its level; other nodes add nothing. -/
theorem notFoundRoute?_eq_some_iff {n : Node} {e : Entry} :
    notFoundRoute? n = some e ↔ n.kind = .notFound ∧ Entry.route n.path n.file [] = e := by
  simp [notFoundRoute?]

/-- The entries of nodes in place are those of each of them, in order. -/
theorem convertEach_eq_flatMap (nodes : List Node) :
    convertEach nodes = nodes.flatMap convertNode := by
  induction nodes with
  | nil => rw [convertEach, List.flatMap_nil]
  | cons n rest ih => rw [convertEach, ih, List.flatMap_cons]

/-- The entries of a level are those of its nodes in place, and those that close it. -/
theorem convert_eq (nodes : List Node) :
    convert nodes = nodes.flatMap convertNode ++ nodes.filterMap notFoundRoute? := by
  rw [convert, convertEach_eq_flatMap]

/-! ### Nodes in place -/

/-- The entries of the directories taken out of one at `parent` are those of each of them, in
order. -/
theorem hoist_eq_flatMap (parent : String) (nodes : List Node) :
    hoist parent nodes = nodes.flatMap fun d =>
      resolve (joinSegments parent d.path) (.hoisted d.children) := by
  induction nodes with
  | nil => rw [hoist, List.flatMap_nil]
  | cons d rest ih => rw [hoist, ih, List.flatMap_cons]

section

variable {n : Node}

theorem convertNode_of_layout (h : n.kind = .layout) :
    convertNode n = [.layout n.file (convert n.children)] := by
  rw [convertNode, h]

theorem convertNode_of_page (h : n.kind = .page) :
    convertNode n = if n.isIndex then [.index n.file] else [] := by
  rw [convertNode, h]

theorem convertNode_of_notFound (h : n.kind = .notFound) : convertNode n = [] := by
  rw [convertNode, h]

/-- A directory is resolved where it stands, and then each one that is taken out of it. -/
theorem convertNode_of_route (h : n.kind = .route) :
    convertNode n = resolve n.path (.split true n.children) ++
      (Partition.split true n.children).dynamic.flatMap fun d =>
        resolve (joinSegments n.path d.path) (.split false d.children) := by
  rw [convertNode, h, ← Partition.directory]
  exact congrArg _ (hoist_eq_flatMap n.path _)

end

/-! ### All entries of a node -/

namespace Node

/-- The entries that a node adds to its level, in place or at the end. -/
def entries (n : Node) : List Entry :=
  convertNode n ++ (notFoundRoute? n).toList

variable {n : Node}

theorem entries_of_notFound (h : n.kind = .notFound) : n.entries = [.route n.path n.file []] := by
  simp [entries, convertNode_of_notFound h, notFoundRoute?, h]

theorem entries_of_ne (h : n.kind ≠ .notFound) : n.entries = convertNode n := by
  simp [entries, notFoundRoute?, h]

end Node

/-- The entries of a level are those that its nodes add, in some order. -/
theorem convert_perm_flatMap (nodes : List Node) :
    (convert nodes).Perm (nodes.flatMap Node.entries) := by
  rw [convert_eq, List.filterMap_eq_flatMap_toList]
  exact List.flatMap_append_perm nodes convertNode fun n => (notFoundRoute? n).toList

/-! ### Directories -/

/-- The child that the entry of a directory has its file from: the layout or, failing that, the
index page. -/
def Partition.sign? (p : Partition) : Option Node :=
  p.layout.or p.index

section

variable {p : Partition}

/-- A directory with a sign becomes a route around what is left inside. -/
theorem resolve_of_sign?_eq_some {sign : Node} (h : p.sign? = some sign) (path : String) :
    resolve path p = [.route path sign.file (convert p.inside)] := by
  obtain ⟨layout?, index?, dynamic, other⟩ := p
  cases layout? with
  | some layout =>
    obtain rfl : layout = sign := by simpa [Partition.sign?] using h
    rw [resolve]
    rfl
  | none =>
    obtain rfl : index? = some sign := by simpa [Partition.sign?] using h
    rw [resolve]
    rfl

/-- A directory without a sign leaves what is inside to the level above. -/
theorem resolve_of_sign?_eq_none (h : p.sign? = none) (path : String) :
    resolve path p = convert p.inside := by
  obtain ⟨layout?, index?, dynamic, other⟩ := p
  obtain ⟨rfl, rfl⟩ : layout? = none ∧ index? = none := by simpa [Partition.sign?] using h
  rw [resolve]
  rfl

end

/-! ### Induction -/

/-- **Induction along the conversion**: over the levels, the nodes in place, and the directories
that are resolved, where they stand (`true`) or taken out (`false`). -/
theorem convert_induction (Level : List Node → Prop) (InPlace : Node → Prop)
    (Resolved : Bool → Node → Prop)
    (level : ∀ nodes, (∀ n ∈ nodes, InPlace n) → Level nodes)
    (layout : ∀ n, n.kind = .layout → Level n.children → InPlace n)
    (page : ∀ n, n.kind = .page → InPlace n)
    (notFound : ∀ n, n.kind = .notFound → InPlace n)
    (route : ∀ n, n.kind = .route → Resolved true n →
      (∀ d ∈ (Partition.split true n.children).dynamic, Resolved false d) → InPlace n)
    (resolved : ∀ hoist d, Level (Partition.split hoist d.children).inside → Resolved hoist d)
    (nodes : List Node) : Level nodes := by
  refine (convert.mutual_induct Level (fun nodes => ∀ n ∈ nodes, InPlace n) InPlace
    (fun _ nodes => ∀ d ∈ nodes, Resolved false d)
    (fun _ p => ∀ hoist d, p = Partition.split hoist d.children → Resolved hoist d)
    level ?noNodes ?node layout ?index ?page notFound ?route ?noneHoisted ?hoisted
    ?resolveLayout ?resolveIndex ?resolveNone).1 nodes
  case noNodes => exact List.forall_mem_nil _
  case node => exact fun n rest hn hrest => List.forall_mem_cons.2 ⟨hn, hrest⟩
  case index => exact fun n hkind _ => page n hkind
  case page => exact fun n hkind _ => page n hkind
  case route => exact fun n hkind hn hdynamic => route n hkind (hn true n rfl) hdynamic
  case noneHoisted => exact fun _ => List.forall_mem_nil _
  case hoisted =>
    exact fun _ d rest hd hrest => List.forall_mem_cons.2 ⟨hd false d rfl, hrest⟩
  -- whichever child is the sign, the level inside is the one that the roles leave there
  case resolveLayout => exact fun _ _ _ _ _ ih hoist d hp => resolved hoist d (hp ▸ ih)
  case resolveIndex => exact fun _ _ _ _ ih hoist d hp => resolved hoist d (hp ▸ ih)
  case resolveNone => exact fun _ _ _ ih hoist d hp => resolved hoist d (hp ▸ ih)

end FileRoutes
