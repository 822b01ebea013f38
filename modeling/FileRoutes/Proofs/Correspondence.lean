import FileRoutes.Proofs.Content
import FileRoutes.Proofs.Conversion
import Mathlib.Data.Multiset.AddSub
import Mathlib.Data.Multiset.MapFold

/-!
# The configuration shows what the tree shows

A tree is **settled** if every directory in it is empty or has a layout among its children. The
configuration of a settled tree shows exactly the files that the tree shows, one entry for each
(`showExactly_convert`): at the address that the segments of the directories make, still
inside all the layouts that were around the file, and with a path of its own exactly for a
directory or a not-found page.

Taking dynamic directories out of their parent joins two segments into one path, which leaves the
address as it is; and it takes them out of no layout, because what is taken out of a directory
stands directly in it, beside its layout.
-/

namespace FileRoutes

/-! ### Entries and their addresses -/

/-- An entry with the entries that enclose it. -/
structure Placed where
  /-- The enclosing entries, outermost first. -/
  above : List Entry
  /-- The entry. -/
  entry : Entry

namespace Placed

/-- Inside one more entry. -/
def inside (e : Entry) (p : Placed) : Placed :=
  { p with above := e :: p.above }

/-- The paths from the top down to the entry, its own included. -/
def paths (p : Placed) : List String :=
  (p.above ++ [p.entry]).filterMap (·.path)

/-- The address of an entry: the paths down to it with slashes in between. -/
def address (p : Placed) : String :=
  "/".intercalate p.paths

/-- The files of the entries that enclose the entry, outermost first. -/
def files (p : Placed) : List String :=
  p.above.map (·.file)

end Placed

namespace Entry

mutual

/-- The entry and the entries inside it, with those that enclose them. -/
def placed : Entry → List Placed
  | ⟨path, file, isIndex, children⟩ =>
    ⟨[], ⟨path, file, isIndex, children⟩⟩ ::
      (placedAll children).map (Placed.inside ⟨path, file, isIndex, children⟩)

/-- The entries of a configuration, with those that enclose them. -/
def placedAll : List Entry → List Placed
  | [] => []
  | e :: rest => e.placed ++ placedAll rest

end

/-- The entry is placed at the top, and around those inside it. -/
theorem placed_eq (e : Entry) : e.placed = ⟨[], e⟩ :: (placedAll e.children).map (.inside e) := by
  cases e
  simp [placed]

@[simp] theorem placedAll_nil : placedAll [] = [] := by simp [placedAll]

@[simp] theorem placedAll_cons (e : Entry) (rest : List Entry) :
    placedAll (e :: rest) = e.placed ++ placedAll rest := by simp [placedAll]

@[simp] theorem placedAll_append (es fs : List Entry) :
    placedAll (es ++ fs) = placedAll es ++ placedAll fs := by
  induction es with
  | nil => simp
  | cons e es ih => simp [ih]

theorem placedAll_eq_flatMap (es : List Entry) : placedAll es = es.flatMap placed := by
  induction es with
  | nil => rw [placedAll_nil, List.flatMap_nil]
  | cons e es ih => rw [placedAll_cons, ih, List.flatMap_cons]

/-- Placed, the entries of a configuration are those of its preorder. -/
theorem map_entry_placedAll : (entries : List Entry) →
    (placedAll entries).map (·.entry) = preorderAll entries
  | [] => by simp
  | ⟨path, file, isIndex, children⟩ :: rest => by
    have hchildren := map_entry_placedAll children
    have hrest := map_entry_placedAll rest
    simp only [placedAll_cons, placed_eq, preorderAll_cons, preorder_eq, List.map_append,
      List.map_cons, List.map_map, ← hchildren, hrest]
    rfl

end Entry

/-! ### Equal addresses -/

/-- The texts make the same address with slashes in between, also below further ones. -/
def SameAddress (a b : List String) : Prop :=
  "/".intercalate a = "/".intercalate b ∧ (a = [] ↔ b = [])

namespace SameAddress

variable {a b : List String}

theorem refl (a : List String) : SameAddress a a := ⟨rfl, Iff.rfl⟩

/-- Below one more text the addresses are still the same. -/
theorem cons (s : String) (h : SameAddress a b) : SameAddress (s :: a) (s :: b) := by
  refine ⟨?_, by simp⟩
  by_cases ha : a = []
  · rw [ha, h.2.1 ha]
  · rw [String.intercalate_cons_of_ne_nil ha, String.intercalate_cons_of_ne_nil (mt h.2.2 ha), h.1]

/-- Two texts may be joined into one. -/
theorem joined {s : String} (hs : s ≠ "") (t : String) (h : SameAddress a b) :
    SameAddress (s :: t :: a) (joinSegments s t :: b) := by
  refine ⟨?_, by simp⟩
  rw [String.intercalate_cons_cons, (h.cons t).1, joinSegments, if_neg hs]
  exact String.intercalate_cons_append.symm

end SameAddress

/-! ### One file, shown and placed -/

/-- The entry shows the file: at its address, inside its layouts at least, and with its segment at
the end of a path of its own if it carries one. -/
structure Shows (x : Shown) (p : Placed) : Prop where
  address : SameAddress x.segments p.paths
  layouts : x.layouts.Sublist p.files
  file : p.entry.file = x.file
  isIndex : p.entry.isIndex = x.isIndex
  own : Option.Rel (fun segment path => ∃ parent, path = joinSegments parent segment)
    x.own p.entry.path

/-- A route at `path` stands for the directories that add `segments`, the last of them `own`. -/
structure StandsFor (path : String) (segments : List String) (own : String) : Prop where
  address : ∀ {a b : List String}, SameAddress a b → SameAddress (segments ++ a) (path :: b)
  own : ∃ parent, path = joinSegments parent own

/-- The route of a directory stands for the directory. -/
theorem StandsFor.directory (path : String) : StandsFor path [path] path :=
  ⟨fun h => h.cons path, "", by simp [joinSegments]⟩

/-- The route of a directory that was taken out stands for it and its parent. -/
theorem StandsFor.hoisted {parent : String} (hparent : parent ≠ "") (path : String) :
    StandsFor (joinSegments parent path) [parent, path] path :=
  ⟨fun h => h.joined hparent path, parent, rfl⟩

namespace Shows

variable {x : Shown} {p : Placed} {path own : String} {segments : List String}

/-- What is shown inside a layout is also shown without regard to it. -/
theorem of_within {file : String} (h : Shows (x.within file) p) : Shows x p :=
  { h with layouts := (List.sublist_cons_self file _).trans h.layouts }

/-- A layout entry around an entry adds a layout and nothing to the address. -/
theorem inside_layout (file : String) (children : List Entry) (h : Shows x p) :
    Shows (x.within file) (p.inside (.layout file children)) :=
  { h with layouts := h.layouts.cons_cons file }

/-- A route around an entry adds the directories that it stands for, and its file as a layout. -/
theorem inside_route (hpath : StandsFor path segments own) (file : String)
    (children : List Entry) (h : Shows x p) :
    Shows ((x.below segments).within file) (p.inside (.route path file children)) :=
  { h with
    address := hpath.address h.address
    layouts := h.layouts.cons_cons file }

/-- A route shows the layout of the directory that it stands for. -/
theorem route (hpath : StandsFor path segments own) (file : String) (children : List Entry) :
    Shows (Shown.below segments ⟨[], [], file, false, some own⟩)
      ⟨[], .route path file children⟩ where
  address := hpath.address (.refl [])
  layouts := List.nil_sublist _
  file := rfl
  isIndex := rfl
  own := .some hpath.own

end Shows

/-! ### Lists of files and entries -/

/-- The entries, nested ones included, show these files, one entry for each. -/
def ShowExactly (files : List Shown) (entries : List Entry) : Prop :=
  Multiset.Rel Shows (files : Multiset Shown) (Entry.placedAll entries : Multiset Placed)

namespace ShowExactly

variable {xs ys : List Shown} {es fs : List Entry} {path file own : String}
  {segments : List String}

theorem nil : ShowExactly [] [] := by
  simp [ShowExactly]

theorem append (h : ShowExactly xs es) (k : ShowExactly ys fs) :
    ShowExactly (xs ++ ys) (es ++ fs) := by
  rw [ShowExactly, Entry.placedAll_append, ← Multiset.coe_add, ← Multiset.coe_add]
  exact Multiset.Rel.add h k

theorem of_perm (h : ShowExactly xs es) (hperm : xs.Perm ys) : ShowExactly ys es := by
  rwa [ShowExactly, ← Multiset.coe_eq_coe.2 hperm]

theorem of_perm_entries (h : ShowExactly xs es) (hperm : es.Perm fs) : ShowExactly xs fs := by
  rw [ShowExactly, Entry.placedAll_eq_flatMap] at h ⊢
  rwa [← Multiset.coe_eq_coe.2 (hperm.flatMap_right Entry.placed)]

/-- What is shown one by one is shown together. -/
theorem flatMap {nodes : List Node} {f : Node → List Shown} {g : Node → List Entry}
    (h : ∀ n ∈ nodes, ShowExactly (f n) (g n)) :
    ShowExactly (nodes.flatMap f) (nodes.flatMap g) := by
  induction nodes with
  | nil => exact nil
  | cons n rest ih =>
    obtain ⟨hn, hrest⟩ := List.forall_mem_cons.1 h
    rw [List.flatMap_cons, List.flatMap_cons]
    exact hn.append (ih hrest)

/-- An index entry shows the index page. -/
theorem index (file : String) : ShowExactly [⟨[], [], file, true, none⟩] [.index file] := by
  have hshows : Shows ⟨[], [], file, true, none⟩ ⟨[], .index file⟩ :=
    { address := .refl [], layouts := List.nil_sublist _, file := rfl, isIndex := rfl,
      own := .none }
  simpa [ShowExactly, Entry.placed_eq, Entry.index] using
    Multiset.Rel.cons hshows Multiset.Rel.zero

/-- A route without children shows the not-found page. -/
theorem notFound (path file : String) :
    ShowExactly [⟨[path], [], file, false, some path⟩] [.route path file []] := by
  have hshows := Shows.route (StandsFor.directory path) file []
  simpa [ShowExactly, Entry.placed_eq, Entry.route, Shown.below] using
    Multiset.Rel.cons hshows Multiset.Rel.zero

/-- A layout entry shows the layout, and inside it what its children show. -/
theorem layout (h : ShowExactly xs es) (file : String) :
    ShowExactly (⟨[], [], file, false, none⟩ :: xs.map (Shown.within file))
      [.layout file es] := by
  have hshows : Shows ⟨[], [], file, false, none⟩ ⟨[], .layout file es⟩ :=
    { address := .refl [], layouts := List.nil_sublist _, file := rfl, isIndex := rfl,
      own := .none }
  have hinside : Multiset.Rel Shows ((xs : Multiset Shown).map (Shown.within file))
      ((Entry.placedAll es : Multiset Placed).map (Placed.inside (.layout file es))) :=
    Multiset.rel_map.2 (h.mono fun x _ p _ hx => hx.inside_layout file es)
  simpa [ShowExactly, Entry.placed_eq, Entry.layout] using Multiset.Rel.cons hshows hinside

/-- A route shows the layout of the directory that it stands for. What its children show is inside
that layout, whether it was so in the tree or not. -/
theorem route (hpath : StandsFor path segments own) (h : ShowExactly (xs ++ ys) es)
    (file : String) :
    ShowExactly ((⟨[], [], file, false, some own⟩ ::
      (xs.map (Shown.within file) ++ ys)).map (Shown.below segments)) [.route path file es] := by
  have hshows := Shows.route hpath file es
  have hinside : Multiset.Rel (fun x p => Shows ((x.below segments).within file)
      (p.inside (.route path file es))) ((xs ++ ys : List Shown) : Multiset Shown)
      (Entry.placedAll es : Multiset Placed) :=
    h.mono fun x _ p _ hx => hx.inside_route hpath file es
  -- the entries inside show what the layout wraps and what stands beside it
  rw [← Multiset.coe_add, Multiset.rel_add_left] at hinside
  obtain ⟨ps, qs, hxs, hys, hplaced⟩ := hinside
  have hwithin : Multiset.Rel Shows
      (((xs : Multiset Shown).map (Shown.within file)).map (Shown.below segments))
      (ps.map (Placed.inside (.route path file es))) := by
    rw [Multiset.map_map]
    exact Multiset.rel_map.2 hxs
  have hbeside : Multiset.Rel Shows ((ys : Multiset Shown).map (Shown.below segments))
      (qs.map (Placed.inside (.route path file es))) :=
    Multiset.rel_map.2 (hys.mono fun x _ p _ hx => hx.of_within)
  have hall := Multiset.Rel.cons hshows (hwithin.add hbeside)
  rw [← Multiset.map_add, ← Multiset.map_add, ← hplaced] at hall
  simpa [ShowExactly, Entry.placed_eq, Entry.route] using hall

end ShowExactly

/-! ### Settled trees -/

/-- A directory has a name for its address, and a layout among its children if it has any. -/
structure Node.Settled (n : Node) : Prop where
  path_ne_empty : n.isRoute = true → n.path ≠ ""
  layout : n.isRoute = true → n.children = [] ∨ n.children.any Node.isLayout = true

/-- The children of a settled directory by role: without a layout there are none, and all of them
are settled themselves. -/
structure Partition.Settled (p : Partition) : Prop where
  layout : ∀ layout, p.layout = some layout → layout.isLayout = true
  empty : p.layout = none → p.index = none ∧ p.dynamic = [] ∧ p.other = []
  all : Node.All Node.Settled p.all

/-- What is shown by the children that stay in the entry of their directory or become it, where the
layout carries the segment `own`. -/
def Partition.shown (own : String) (p : Partition) : List Shown :=
  match p.layout with
  | some layout => layout.shown (some own) ++ Node.shownAll p.other
  | none => Node.shownAll p.other

namespace Node

variable {hoist : Bool} {own : String} {children : List Node}

/-- The children of a settled directory either have a layout or are none at all. -/
theorem exists_layout_split (h : children = [] ∨ children.any isLayout = true) :
    children = [] ∨ ∃ layout, (Partition.split hoist children).layout = some layout := by
  refine h.imp id fun hany => ?_
  rw [Partition.layout_split, ← Option.isSome_iff_exists, List.find?_isSome]
  simpa using hany

/-- What the children of a settled directory show, by their roles. -/
theorem shownInDirectory_split_perm (h : children = [] ∨ children.any isLayout = true) :
    (shownInDirectory own children).Perm ((Partition.split hoist children).shown own ++
      shownAll (Partition.split hoist children).dynamic) := by
  rcases @exists_layout_split hoist _ h with rfl | ⟨layout, hlayout⟩
  · simp [Partition.shown]
  · have hfirst := hlayout
    rw [Partition.layout_split] at hfirst
    have hperm := @shownInDirectory_perm own _ _ _ hfirst (Partition.split_perm_of_layout hlayout)
    refine hperm.trans ?_
    rw [Partition.shown, hlayout, List.append_assoc, shownAll_append]
    exact List.perm_append_comm.append_left _

end Node

/-! ### The correspondence -/

namespace Node

/-- A settled directory shows what its route shows and what is taken out of it. -/
theorem shown_perm_of_settled {n : Node} (hoist : Bool) (hroute : n.isRoute = true)
    (h : n.Settled) :
    (n.shown none).Perm (((Partition.split hoist n.children).shown n.path).map (.below [n.path]) ++
      (shownAll (Partition.split hoist n.children).dynamic).map (.below [n.path])) := by
  rw [shown_of_route hroute, ← List.map_append]
  exact (shownInDirectory_split_perm (h.layout hroute)).map _

/-- A settled directory that is taken out keeps all that it shows. -/
theorem shown_perm_of_hoisted {d : Node} (hroute : d.isRoute = true) (h : d.Settled)
    (parent : String) :
    ((d.shown none).map (Shown.below [parent])).Perm
      (((Partition.split false d.children).shown d.path).map (Shown.below [parent, d.path])) := by
  have hshown := (shown_perm_of_settled false hroute h).map (Shown.below [parent])
  have hdynamic : (Partition.split false d.children).dynamic = [] :=
    Partition.dynamic_hoisted d.children
  rwa [hdynamic, shownAll_nil, List.map_nil, List.append_nil, List.map_map] at hshown

/-- The children of a settled directory are settled by role. -/
theorem Settled.split {n : Node} (h : n.Settled) (hroute : n.isRoute = true)
    (hchildren : All Node.Settled n.children) (hoist : Bool) :
    (Partition.split hoist n.children).Settled := by
  refine ⟨fun layout hsome => ?_, fun hnone => ?_,
    (all_perm_iff (Partition.all_split_perm hoist _)).2 hchildren⟩
  · rw [Partition.layout_split] at hsome
    exact List.find?_some hsome
  · rcases @exists_layout_split hoist _ (h.layout hroute) with hempty | ⟨layout, hsome⟩
    · simp [hempty]
    · simp [hsome] at hnone

end Node

open Node in
/-- **Every file that a settled tree shows is shown by one entry of its configuration**, and no
entry shows anything else. -/
theorem showExactly_convert (nodes : List Node) (h : All Settled nodes) :
    ShowExactly (shownAll nodes) (convert nodes) := by
  refine convert_induction
    (fun nodes => All Settled nodes → ShowExactly (shownAll nodes) (convert nodes))
    (fun n => n.Settled → All Settled n.children → ShowExactly (n.shown none) n.entries)
    (fun hoist d => d.isRoute = true → d.Settled → All Settled d.children →
      ∀ path segments, StandsFor path segments d.path →
      ShowExactly (((Partition.split hoist d.children).shown d.path).map (.below segments))
        (resolve path (.split hoist d.children)))
    ?level ?layout ?page ?notFound ?route ?resolved nodes h
  case level =>
    intro nodes ih hnodes
    rw [shownAll_eq_flatMap]
    refine .of_perm_entries (.flatMap fun n hn => ?_) (convert_perm_flatMap nodes).symm
    obtain ⟨hsettled, hchildren⟩ := all_iff_forall_mem.1 hnodes n hn
    exact ih n hn hsettled hchildren
  case layout =>
    intro n hkind ih _ hchildren
    have hlayout : n.isLayout = true := isLayout_iff.2 hkind
    rw [entries_of_ne (by simp [hkind]), convertNode_of_layout hkind, shown_of_layout hlayout]
    exact (ih hchildren).layout n.file
  case page =>
    intro n hkind _ _
    rw [entries_of_ne (by simp [hkind]), convertNode_of_page hkind, shown_of_page hkind]
    split
    · exact .index n.file
    · exact .nil
  case notFound =>
    intro n hkind _ _
    rw [entries_of_notFound hkind, shown_of_notFound hkind]
    exact .notFound n.path n.file
  case route =>
    intro n hkind hresolved hhoisted hn hchildren
    have hroute : n.isRoute = true := isRoute_iff.2 hkind
    have hall := all_iff_forall_mem.1 (hn.split hroute hchildren true).all
    -- what is taken out shows below the segments of both directories
    have htaken : ShowExactly
        ((shownAll (Partition.split true n.children).dynamic).map (.below [n.path]))
        ((Partition.split true n.children).dynamic.flatMap fun d =>
          resolve (joinSegments n.path d.path) (.split false d.children)) := by
      rw [shownAll_eq_flatMap, List.map_flatMap]
      refine .flatMap fun d hd => ?_
      obtain ⟨hsettled, hbelow⟩ := hall d (by simp [Partition.all, hd])
      have hdirectory := (Partition.isRoute_of_mem_dynamic_split hd).2.1
      exact (hhoisted d hd hdirectory hsettled hbelow _ _
        (.hoisted (hn.path_ne_empty hroute) d.path)).of_perm
        (shown_perm_of_hoisted hdirectory hsettled n.path).symm
    rw [entries_of_ne (by simp [hkind]), convertNode_of_route hkind]
    exact ((hresolved hroute hn hchildren _ _ (.directory n.path)).append htaken).of_perm
      (shown_perm_of_settled true hroute hn).symm
  case resolved =>
    intro hoist d ih hroute hd hchildren path segments hpath
    have hp := hd.split hroute hchildren hoist
    generalize Partition.split hoist d.children = p at ih hp ⊢
    obtain ⟨layout?, index?, dynamic, other⟩ := p
    cases layout? with
    | none =>
      obtain ⟨rfl, -, rfl⟩ : index? = none ∧ _ ∧ other = [] := hp.empty rfl
      rw [resolve_of_sign?_eq_none rfl]
      exact ih all_nil
    | some layout =>
      have hall : All Settled (layout :: other) := hp.all.of_subset fun n hn => by
        rcases List.mem_cons.1 hn with rfl | hn <;> simp [Partition.all, *]
      obtain ⟨⟨-, hwrapped⟩, hother⟩ := all_cons.1 hall
      have hinside := ih (all_append.2 ⟨hwrapped, hother⟩)
      rw [Partition.inside, shownAll_append] at hinside
      have hshown : Partition.shown d.path ⟨some layout, index?, dynamic, other⟩ =
          ⟨[], [], layout.file, false, some d.path⟩ ::
            ((shownAll layout.children).map (.within layout.file) ++ shownAll other) := by
        simp [Partition.shown, shown_of_layout (hp.layout layout rfl)]
      rw [resolve_of_sign?_eq_some rfl, hshown]
      exact hinside.route hpath layout.file

end FileRoutes
