import FileRoutes.Proofs.Stored
import Mathlib.Data.Multiset.Filter

/-!
# No directory loses its segment

Every directory with contents has a layout in the tree of a scan, authored or placeholder, and the
entry of that layout carries the segment of the directory. So the conversion never takes the index
page of a directory for its entry, and dissolves a directory into the level above only if nothing
is in it. What remains is one entry with a path of its own for each directory with contents and
each not-found page, at the address that all segments down to it make.

Main result: `Job.Run.segments_kept`, on every interleaved run of a build on any storage.
-/

namespace FileRoutes

/-! ### Nodes and the segments down to them -/

/-- A node of a tree with the segments that lead to it, its own included. -/
structure Located where
  /-- The segments, outermost first. -/
  segments : List String
  /-- The node. -/
  node : Node

/-- In directories that add `segments`. -/
def Located.below (segments : List String) (x : Located) : Located :=
  { x with segments := segments ++ x.segments }

namespace Node

/-- What a node adds to the address: directories and not-found pages add their path. -/
def segments (n : Node) : List String :=
  if n.kind = .route ∨ n.kind = .notFound then [n.path] else []

mutual

/-- The node and all nodes inside it, with the segments down to each. -/
def located : Node → List Located
  | ⟨kind, path, file, isDynamic, isIndex, children⟩ =>
    ⟨segments ⟨kind, path, file, isDynamic, isIndex, children⟩,
        ⟨kind, path, file, isDynamic, isIndex, children⟩⟩ ::
      (locatedAll children).map
        (Located.below (segments ⟨kind, path, file, isDynamic, isIndex, children⟩))

/-- The nodes of a list of trees, with the segments down to each. -/
def locatedAll : List Node → List Located
  | [] => []
  | n :: rest => n.located ++ locatedAll rest

end

/-- A node is located at its own segment, and above those inside it. -/
theorem located_eq (n : Node) :
    n.located = ⟨n.segments, n⟩ :: (locatedAll n.children).map (.below n.segments) := by
  cases n
  simp [located]

@[simp] theorem locatedAll_nil : locatedAll [] = [] := by simp [locatedAll]

@[simp] theorem locatedAll_cons (n : Node) (rest : List Node) :
    locatedAll (n :: rest) = n.located ++ locatedAll rest := by simp [locatedAll]

/-- The file shown at the segment that a node adds: that of the layout of a directory, and of a
not-found page its own. -/
def sign? (n : Node) : Option String :=
  match n.kind with
  | .route => (n.children.find? isLayout).map (·.file)
  | .notFound => some n.file
  | _ => none

/-- Pages and not-found pages have nothing inside. -/
def Leaf (n : Node) : Prop :=
  n.kind = .page ∨ n.kind = .notFound → n.children = []

end Node

/-- A segment with those above it and the file that is shown at it. -/
structure Sign where
  /-- The segments down to it, its own included. -/
  segments : List String
  /-- The segment. -/
  own : String
  /-- The file. -/
  file : String

namespace Sign

/-- In directories that add `segments`. -/
def below (segments : List String) (x : Sign) : Sign :=
  { x with segments := segments ++ x.segments }

/-- The sign of a file that carries a segment. -/
def ofShown? (x : Shown) : Option Sign :=
  x.own.map fun own => ⟨x.segments, own, x.file⟩

/-- The sign of a node that adds a segment. -/
def ofLocated? (x : Located) : Option Sign :=
  x.node.sign?.map fun file => ⟨x.segments, x.node.path, file⟩

theorem filterMap_below_shown (segments : List String) (xs : List Shown) :
    (xs.map (Shown.below segments)).filterMap ofShown? =
      (xs.filterMap ofShown?).map (below segments) := by
  simp only [List.filterMap_map, List.map_filterMap]
  congr 1
  funext x
  cases hx : x.own <;> simp [ofShown?, Shown.below, below, hx]

theorem filterMap_within (file : String) (xs : List Shown) :
    (xs.map (Shown.within file)).filterMap ofShown? = xs.filterMap ofShown? := by
  rw [List.filterMap_map]
  rfl

theorem filterMap_below_located (segments : List String) (xs : List Located) :
    (xs.map (Located.below segments)).filterMap ofLocated? =
      (xs.filterMap ofLocated?).map (below segments) := by
  simp only [List.filterMap_map, List.map_filterMap]
  congr 1
  funext x
  cases hx : x.node.sign? <;> simp [ofLocated?, Located.below, below, hx]

@[simp] theorem below_nil : below [] = id := rfl

end Sign

namespace Node

open Sign

mutual

/-- A node shows a file for each segment inside it; a layout with a segment to carry shows one
more. -/
private theorem signs_perm : (n : Node) → (own? : Option String) → n.Leaf → All Leaf n.children →
    ((n.shown own?).filterMap ofShown?).Perm
      ((if n.isLayout then own?.toList.map fun own => ⟨[], own, n.file⟩ else []) ++
        n.located.filterMap ofLocated?)
  | ⟨.layout, path, file, isDynamic, isIndex, children⟩, own?, _, hchildren => by
    have ih := signsAll_perm children hchildren
    rw [shown_of_layout rfl, located_eq, List.filterMap_cons, List.filterMap_cons,
      filterMap_within, filterMap_below_located]
    cases own? with
    | none => simpa [segments, isLayout, ofShown?, ofLocated?, sign?] using ih
    | some own => simpa [segments, isLayout, ofShown?, ofLocated?, sign?] using ih
  | ⟨.page, path, file, isDynamic, isIndex, children⟩, own?, hleaf, _ => by
    obtain rfl : children = [] := hleaf (.inl rfl)
    rw [shown_of_page rfl, located_eq]
    cases isIndex <;> simp [isLayout, ofShown?, ofLocated?, sign?, List.filterMap_cons]
  | ⟨.notFound, path, file, isDynamic, isIndex, children⟩, own?, hleaf, _ => by
    obtain rfl : children = [] := hleaf (.inr rfl)
    rw [shown_of_notFound rfl, located_eq]
    simp [isLayout, ofShown?, ofLocated?, sign?, segments]
  | ⟨.route, path, file, isDynamic, isIndex, children⟩, own?, _, hchildren => by
    have ih := (signsInDirectory_perm path children hchildren).map (below [path])
    rw [shown_of_route rfl, filterMap_below_shown, located_eq, List.filterMap_cons,
      filterMap_below_located]
    refine ih.trans ?_
    cases hfirst : children.find? isLayout <;>
      simp [hfirst, isLayout, ofLocated?, sign?, segments, below]

/-- The nodes of a list show a file for each segment inside. -/
private theorem signsAll_perm : (nodes : List Node) → All Leaf nodes →
    ((shownAll nodes).filterMap ofShown?).Perm ((locatedAll nodes).filterMap ofLocated?)
  | [], _ => by simp
  | n :: rest, h => by
    obtain ⟨⟨hn, hchildren⟩, hrest⟩ := all_cons.1 h
    rw [shownAll_cons, locatedAll_cons, List.filterMap_append, List.filterMap_append]
    exact List.Perm.append (by simpa using signs_perm n none hn hchildren)
      (signsAll_perm rest hrest)

/-- The children of a directory show a file for its own segment, if there is a layout among them,
and one for each segment inside. -/
private theorem signsInDirectory_perm : (own : String) → (nodes : List Node) → All Leaf nodes →
    ((shownInDirectory own nodes).filterMap ofShown?).Perm
      (((nodes.find? isLayout).toList.map fun layout => ⟨[], own, layout.file⟩) ++
        (locatedAll nodes).filterMap ofLocated?)
  | own, [], _ => by simp
  | own, n :: rest, h => by
    obtain ⟨⟨hn, hchildren⟩, hrest⟩ := all_cons.1 h
    rw [shownInDirectory, locatedAll_cons, List.filterMap_append]
    cases hlayout : n.isLayout with
    | true =>
      have hfirst := signs_perm n (some own) hn hchildren
      simp only [hlayout, if_true] at hfirst ⊢
      rw [List.filterMap_append, List.find?_cons_of_pos hlayout, ← List.append_assoc]
      exact hfirst.append (signsAll_perm rest hrest)
    | false =>
      have hfirst := signs_perm n none hn hchildren
      simp only [hlayout, Bool.false_eq_true, if_false, List.nil_append] at hfirst ⊢
      rw [List.filterMap_append, List.find?_cons_of_neg (by simpa using hlayout)]
      refine (hfirst.append (signsInDirectory_perm own rest hrest)).trans ?_
      rw [← List.append_assoc, ← List.append_assoc]
      exact List.perm_append_comm.append_right _

end

mutual

/-- The nodes located are all nodes inside. -/
private theorem map_node_located : (n : Node) → n.located.map Located.node = n.preorder
  | ⟨kind, path, file, isDynamic, isIndex, children⟩ => by
    have ih := map_node_locatedAll children
    rw [located_eq, preorder_eq, List.map_cons, List.map_map]
    exact congrArg _ ih

private theorem map_node_locatedAll :
    (nodes : List Node) → (locatedAll nodes).map Located.node = preorderAll nodes
  | [] => by simp
  | n :: rest => by
    rw [locatedAll_cons, preorderAll_cons, List.map_append, map_node_located n,
      map_node_locatedAll rest]

end

/-- A directory is empty or has a layout. -/
def Covered (n : Node) : Prop :=
  n.isRoute = true → n.children = [] ∨ n.children.any isLayout = true

/-- The node takes a sign: a directory with contents, or a not-found page. -/
def carriesSegment (n : Node) : Bool :=
  n.isRoute && !n.children.isEmpty || n.kind = .notFound

/-- In a tree where directories with contents have layouts, each of them shows a file. -/
theorem isSome_sign? {n : Node} (h : n.Covered) : n.sign?.isSome = n.carriesSegment := by
  obtain ⟨kind, path, file, isDynamic, isIndex, children⟩ := n
  cases kind with
  | route =>
    rcases h rfl with hnone | hlayout
    · obtain rfl : children = [] := hnone
      simp [sign?, carriesSegment, isRoute]
    · have hsome : (children.find? isLayout).isSome = true := by
        rw [List.find?_isSome]
        simpa using hlayout
      have hne : children ≠ [] := by
        rintro rfl
        simp at hsome
      simp [sign?, carriesSegment, isRoute, hsome, hne]
  | _ => simp [sign?, carriesSegment, isRoute]

end Node

/-! ### What the conversion resolves -/

/-- While the trees of `top` are converted, the nodes of a list are converted as one level. -/
inductive Converts (top : List Node) : List Node → Prop
  | top : Converts top top
  /-- What a layout wraps. -/
  | layout {nodes : List Node} {n : Node} (h : Converts top nodes) (hn : n ∈ nodes)
    (hkind : n.kind = .layout) : Converts top n.children
  /-- What is left inside a directory. -/
  | directory {nodes : List Node} {n : Node} (h : Converts top nodes) (hn : n ∈ nodes)
    (hkind : n.kind = .route) : Converts top (Partition.split true n.children).inside
  /-- What is left inside a directory that was taken out. -/
  | hoisted {nodes : List Node} {n d : Node} (h : Converts top nodes) (hn : n ∈ nodes)
    (hkind : n.kind = .route) (hd : d ∈ (Partition.split true n.children).dynamic) :
    Converts top (Partition.split false d.children).inside

/-- While the trees of `top` are converted, a directory is resolved at `path`: where it stands,
with its dynamic directories taken out, or as one of these. -/
inductive Resolves (top : List Node) : (path : String) → (hoist : Bool) → Node → Prop
  | directory {nodes : List Node} {n : Node} (h : Converts top nodes) (hn : n ∈ nodes)
    (hkind : n.kind = .route) : Resolves top n.path true n
  | hoisted {nodes : List Node} {n d : Node} (h : Converts top nodes) (hn : n ∈ nodes)
    (hkind : n.kind = .route) (hd : d ∈ (Partition.split true n.children).dynamic) :
    Resolves top (joinSegments n.path d.path) false d

section

variable {P : Node → Prop} {top nodes : List Node}

/-- What holds of all nodes below a directory holds of those that are left inside it. -/
private theorem all_inside_split {children : List Node} (hoist : Bool)
    (h : Node.All P children) : Node.All P (Partition.split hoist children).inside := by
  have hall := (Node.all_perm_iff (Partition.all_split_perm hoist children)).2 h
  generalize Partition.split hoist children = p at hall
  obtain ⟨layout?, index?, dynamic, other⟩ := p
  cases layout? with
  | none => exact hall.of_subset fun n hn => by simp_all [Partition.inside, Partition.all]
  | some layout =>
    have hlayout : Node.All P (layout :: other) := hall.of_subset fun n hn => by
      rcases List.mem_cons.1 hn with rfl | hn <;> simp [Partition.all, *]
    obtain ⟨⟨-, hchildren⟩, hother⟩ := Node.all_cons.1 hlayout
    exact Node.all_append.2 ⟨hchildren, hother⟩

private theorem all_of_mem_dynamic {n d : Node} (h : Node.All P nodes) (hn : n ∈ nodes)
    (hd : d ∈ (Partition.split true n.children).dynamic) : P d ∧ Node.All P d.children := by
  have hchildren := (Node.all_iff_forall_mem.1 h n hn).2
  have hall := (Node.all_perm_iff (Partition.all_split_perm true n.children)).2 hchildren
  exact Node.all_iff_forall_mem.1 hall d (by simp [Partition.all, hd])

/-- What holds of all nodes of the trees holds of those of every level. -/
theorem Converts.all (h : Converts top nodes) (htop : Node.All P top) : Node.All P nodes := by
  induction h with
  | top => exact htop
  | layout _ hn _ ih => exact (Node.all_iff_forall_mem.1 ih _ hn).2
  | directory _ hn _ ih => exact all_inside_split true (Node.all_iff_forall_mem.1 ih _ hn).2
  | hoisted _ hn _ hd ih => exact all_inside_split false (all_of_mem_dynamic ih hn hd).2

/-- A directory that is resolved is one of the trees. -/
theorem Resolves.holds {path : String} {hoist : Bool} {n : Node} (h : Resolves top path hoist n)
    (htop : Node.All P top) : n.isRoute = true ∧ P n := by
  cases h with
  | directory h hn hkind =>
    exact ⟨Node.isRoute_iff.2 hkind, (Node.all_iff_forall_mem.1 (h.all htop) n hn).1⟩
  | hoisted h hn hkind hd =>
    exact ⟨(Partition.isRoute_of_mem_dynamic_split hd).2.1,
      (all_of_mem_dynamic (h.all htop) hn hd).1⟩

/-- A directory without a layout is resolved to nothing, and nothing is in it. -/
theorem Resolves.eq_nil_of_layout_none {path : String} {hoist : Bool} {n : Node}
    (h : Resolves top path hoist n) (htop : Node.All Node.Covered top)
    (hnone : (Partition.split hoist n.children).layout = none) :
    n.children = [] ∧ (Partition.split hoist n.children).index = none ∧
      resolve path (Partition.split hoist n.children) = [] := by
  obtain ⟨hroute, hcovered⟩ := h.holds htop
  rcases hcovered hroute with hempty | hlayout
  · refine ⟨hempty, by simp [hempty], ?_⟩
    rw [hempty, Partition.split_nil, resolve, convert, convertEach]
    rfl
  · rw [Partition.layout_split, List.find?_eq_none] at hnone
    simp only [List.any_eq_true] at hlayout
    obtain ⟨layout, hmem, hlayout⟩ := hlayout
    exact absurd hlayout (hnone layout hmem)

end

/-! ### One entry for each segment -/

section

variable {α β γ δ : Type} {R : α → β → Prop} {S : γ → δ → Prop} {T : γ → β → Prop}

/-- What two related families are narrowed down to stays related. -/
private theorem rel_filterMap {f : α → Option γ} {g : β → Option δ}
    (hfg : ∀ a b, R a b → Option.Rel S (f a) (g b)) {s : Multiset α} {t : Multiset β}
    (h : Multiset.Rel R s t) : Multiset.Rel S (s.filterMap f) (t.filterMap g) := by
  induction h with
  | zero => exact .zero
  | @cons a b s t hab _ ih =>
    have hrel := hfg a b hab
    cases hf : f a <;> cases hg : g b <;> rw [hf, hg] at hrel <;> cases hrel
    · rwa [Multiset.filterMap_cons_none _ _ hf, Multiset.filterMap_cons_none _ _ hg]
    · next hcd =>
      rw [Multiset.filterMap_cons_some _ _ _ hf, Multiset.filterMap_cons_some _ _ _ hg]
      exact .cons hcd ih

private theorem rel_filter_of_rel_filterMap {f : α → Option γ} {s : Multiset α}
    {t : Multiset β} (h : Multiset.Rel T (s.filterMap f) t) :
    Multiset.Rel (fun a b => ∃ c, f a = some c ∧ T c b) (s.filter fun a => (f a).isSome) t := by
  induction s using Multiset.induction generalizing t with
  | empty => simpa using h
  | cons a s ih =>
    cases hf : f a with
    | none =>
      rw [Multiset.filterMap_cons_none _ _ hf] at h
      rw [Multiset.filter_cons_of_neg _ (by simp [hf])]
      exact ih h
    | some c =>
      rw [Multiset.filterMap_cons_some _ _ _ hf, Multiset.rel_cons_left] at h
      obtain ⟨b, t', hcb, ht', rfl⟩ := h
      rw [Multiset.filter_cons_of_pos _ (by simp [hf])]
      exact .cons ⟨c, hf, hcb⟩ (ih ht')

end

/-- The entry has the address that the segments down to the node make, carries the segment of the
node at the end of its path, and shows the file of the node. -/
structure Carries (x : Located) (p : Placed) : Prop where
  address : p.address = "/".intercalate x.segments
  path : ∃ parent, p.entry.path = some (joinSegments parent x.node.path)
  file : x.node.sign? = some p.entry.file

/-- Directories with contents and not-found pages of a settled tree have one entry with a path
each, and no other entry has one. -/
theorem rel_carries_convert {tree : List Node} (hsettled : Node.All Node.Settled tree)
    (hleaf : Node.All Node.Leaf tree) :
    Multiset.Rel Carries ((Node.locatedAll tree).filter (·.node.carriesSegment) : List Located)
      ((Entry.placedAll (convert tree)).filter (·.entry.path.isSome) : List Placed) := by
  have hshows := showExactly_convert tree hsettled
  -- of all files shown, those with a segment to carry are related to the entries with a path
  have hsigns : Multiset.Rel (fun (x : Sign) (p : Placed) =>
      p.address = "/".intercalate x.segments ∧
        (∃ parent, p.entry.path = some (joinSegments parent x.own)) ∧ x.file = p.entry.file)
      ((Node.shownAll tree : Multiset Shown).filterMap Sign.ofShown?)
      ((Entry.placedAll (convert tree) : Multiset Placed).filterMap
        (Option.guard fun p => p.entry.path.isSome)) := by
    refine rel_filterMap (fun x p hx => ?_) hshows
    have hown := hx.own
    cases hsegment : x.own <;> cases hpath : p.entry.path <;> rw [hsegment, hpath] at hown <;>
      cases hown
    · simp [Sign.ofShown?, hsegment, Option.guard, hpath]
    · next hjoined =>
      obtain ⟨parent, rfl⟩ := hjoined
      simp only [Sign.ofShown?, hsegment, Option.guard, hpath]
      exact .some ⟨hx.address.1.symm, ⟨parent, hpath⟩, hx.file.symm⟩
  rw [Multiset.filterMap_coe, Multiset.coe_eq_coe.2 (Node.signsAll_perm tree hleaf),
    ← Multiset.filterMap_coe, Multiset.filterMap_coe _ (Entry.placedAll _),
    List.filterMap_eq_filter] at hsigns
  have hlocated := rel_filter_of_rel_filterMap hsigns
  rw [Multiset.filter_coe] at hlocated
  -- as the tree is settled, a file is shown for each segment of a directory with contents
  have hsame : (Node.locatedAll tree).filter (fun x => (Sign.ofLocated? x).isSome) =
      (Node.locatedAll tree).filter (·.node.carriesSegment) := by
    refine List.filter_congr fun x hx => ?_
    have hmem : x.node ∈ Node.preorderAll tree := by
      rw [← Node.map_node_locatedAll]
      exact List.mem_map_of_mem hx
    rw [← Node.isSome_sign? (hsettled x.node hmem).layout]
    simp [Sign.ofLocated?]
  simp only [Bool.decide_eq_true] at hlocated
  rw [hsame] at hlocated
  refine hlocated.mono fun x _ p _ hx => ?_
  obtain ⟨sign, hsign, haddress, hpath, hfile⟩ := hx
  obtain ⟨file, hx, rfl⟩ := Option.map_eq_some_iff.1 hsign
  exact ⟨haddress, hpath, hx.trans (congrArg some hfile)⟩

/-- **No directory loses its segment.** In every tree that a build returns, on any storage and in
any order of its calls, directories are empty or have a layout. So no directory is resolved to its
index page, and one without a layout is resolved to nothing, as nothing is in it. If all entries
listed have names, the directories with contents and the not-found pages have one entry with a path
each, and no other entry has one: the entry has the address that all segments down to it make, its
path ends in its own segment, and its file is that of its layout or of the not-found page. -/
theorem Job.Run.segments_kept {σ : Type} {storage : Storage (StateM σ)} {o : Options}
    {depth : Nat} {s s' : σ} {events : List Event} {job : Job (List Node)} {tree : List Node}
    (hrun : Job.Run storage (buildTree o depth) s events job s')
    (hresult : job.result? = some (.ok tree)) :
    (∀ n ∈ Node.preorderAll tree, n.isRoute = true →
      n.children = [] ∨ n.children.any Node.isLayout = true) ∧
    (∀ path hoist n, Resolves tree path hoist n →
      (Partition.split hoist n.children).layout = none →
        n.children = [] ∧ (Partition.split hoist n.children).index = none ∧
          resolve path (Partition.split hoist n.children) = []) ∧
    ((∀ path listing, Event.listed path listing ∈ events → ∀ e ∈ listing, e.name ≠ "") →
      Multiset.Rel Carries
        ((Node.locatedAll tree).filter (·.node.carriesSegment) : List Located)
        ((Entry.placedAll (convert tree)).filter (·.entry.path.isSome) : List Placed)) := by
  obtain ⟨ignored, F, -, -, rfl, hfolders⟩ := hrun.exists_folder hresult
  have hcovered : Node.All Node.Covered (F.nodes ignored
      (o.cache.referenceFor (startDirectory o.routes)) (startDirectory o.routes)) :=
    Folder.all_nodes (Q := fun _ => True) (fun _ => nofun) (fun _ => nofun) (fun _ _ => nofun)
      (fun _ _ _ hchildren _ => hchildren) (Folder.names_iff.2 fun _ _ _ _ => trivial)
  refine ⟨hcovered, fun path hoist n hn => hn.eq_nil_of_layout_none hcovered, fun hnames => ?_⟩
  refine rel_carries_convert (Folder.settled_nodes (Folder.names_iff.2 fun x hx e he => ?_)) ?_
  · exact hnames _ _ (Multiset.mem_coe.1 ((hfolders _ _).2 ⟨x, hx, rfl, rfl⟩)) e he
  · exact Folder.all_nodes (Q := fun _ => True) (fun _ _ => rfl) (fun _ _ => rfl)
      (fun _ _ => nofun) (fun _ _ _ _ => nofun) (Folder.names_iff.2 fun _ _ _ _ => trivial)

/-- The segments of the users' routes are kept. -/
theorem Job.Run.segments_kept_users :
    (∀ path hoist n, Resolves Memory.usersTree path hoist n →
      (Partition.split hoist n.children).layout = none → n.children = []) ∧
    Multiset.Rel Carries
      ((Node.locatedAll Memory.usersTree).filter (·.node.carriesSegment) : List Located)
      ((Entry.placedAll (convert Memory.usersTree)).filter (·.entry.path.isSome) :
        List Placed) := by
  obtain ⟨events, job, m', hrun, hresult⟩ := Memory.exists_run_users
  obtain ⟨-, hresolves, hcarries⟩ := Job.Run.segments_kept hrun hresult
  refine ⟨fun path hoist n hn hnone => (hresolves path hoist n hn hnone).1,
    hcarries fun path listing hlisted e he => ?_⟩
  exact ((hrun.lawful_listed (Memory.reachable_ofFiles _) hlisted).isName e he).1

end FileRoutes
