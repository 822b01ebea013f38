import FileRoutes.Proofs.Barren
import FileRoutes.Proofs.Live

/-!
# References lead to files

The files of a configuration are given by their paths seen from the root of the application. These
are put together as texts, apart from the paths that are passed to the storage: a listed file is
referred to by the path of its directory below the routes directory, with `./` in front, and a
placeholder by the directory of the cache as the options have it. Both ways lead to one location
(`Options.location_join_referenceOf`, `LayoutCache.location_join_reference`), except for a cache
whose directory is the empty text, which makes the references of placeholders absolute.

A listed file was there from the start, and a placeholder is there once a layout refers to it
(`Node.Backed`), whatever other tasks do.

Main result: `Job.Run.references_resolve`.
-/

namespace FileRoutes

/-! ### Where references lead -/

/-- A reference is relative, whatever the path. -/
theorem isAbsolute_fileReference (path : String) :
    Path.isAbsolute ⟨fileReference path⟩ = false := by
  simp [Path.isAbsolute, fileReference, List.isPrefixOf]

/-- The reference of a file leads where its path does. -/
theorem location_join_fileReference (root : Path) {path : String}
    (h : Path.isAbsolute ⟨path⟩ = false) :
    (root.join (fileReference path)).location = (root.join path).location := by
  have hdot : fileReference path = "." ++ "/" ++ path := by simp [fileReference]
  have hfirst : Path.namesOf "." = ["."] := Path.namesOf_of_not_mem (by decide) (by decide)
  rw [Path.location_join root (isAbsolute_fileReference path), Path.location_join root h, hdot,
    Path.namesOf_append_slash, hfirst]
  simp

/-- **The reference of a file in a listed directory leads to this file.** -/
theorem Options.location_join_referenceOf (o : Options) {folders : List String} {name : String}
    (hfolders : ∀ n ∈ folders, IsName n ∧ n ≠ ".") (hname : IsName name ∧ name ≠ ".") :
    (o.root.join (o.referenceOf folders name)).location =
      (o.directoryPath folders).location.child name := by
  have hnames : ∀ n ∈ folders ++ [name], IsName n ∧ n ≠ "." :=
    List.forall_mem_append.2 ⟨hfolders, by simpa using hname⟩
  have hrelative := isAbsolute_pathBelow (isAbsolute_startDirectory o.routes)
    fun n hn => (hnames n hn).1
  rw [Options.referenceOf, location_join_fileReference o.root hrelative,
    o.location_join_pathBelow hnames, Options.directoryPath, o.location_join_pathBelow hfolders,
    Location.child_descend]

namespace LayoutCache

variable {cache : LayoutCache}

/-- **The reference of a placeholder leads to its file**, unless the cache has an empty text for its
directory. -/
theorem location_join_reference (h : cache.directory ≠ "") (directory : String) :
    (cache.root.join (cache.reference directory)).location =
      (cache.filePath directory).location := by
  have hname := isName_fileName directory
  have hnames : Path.namesOf (cache.reference directory) =
      Path.namesOf cache.directory ++ [fileName directory] := by
    rw [reference, Path.namesOf_append_slash, Path.namesOf_of_not_mem hname.2 hname.1]
  have hdot := (fileName_ne_dots directory).1
  -- the reference begins as the directory of the cache does
  have habsolute : Path.isAbsolute ⟨cache.reference directory⟩ =
      Path.isAbsolute ⟨cache.directory⟩ := by
    obtain ⟨c, rest, hchars⟩ := List.exists_cons_of_ne_nil
      (fun hnil => h (String.toList_inj.1 (by simpa using hnil)) : cache.directory.toList ≠ [])
    simp [Path.isAbsolute, reference, hchars, List.isPrefixOf]
  rw [location_filePath, path, Location.child]
  cases hcache : Path.isAbsolute ⟨cache.directory⟩ with
  | true =>
    rw [Path.join_of_isAbsolute (habsolute.trans hcache), Path.join_of_isAbsolute hcache]
    simp [Path.location, Path.names, habsolute, hnames, hdot]
  | false =>
    rw [Path.location_join _ (habsolute.trans hcache), Path.location_join _ hcache, hnames]
    simp [hdot]

end LayoutCache

/-! ### Placeholders are there -/

/-- A task is told of its placeholder by its reference. -/
theorem Memory.eq_reference_of_placeholder {faults : Faults} {cache : LayoutCache} {s : Memory}
    {directory file : String} (h : s.placeholder faults cache directory = .ok file) :
    file = cache.reference directory := by
  have hfile : ∀ {takes}, placeholderFile faults cache takes s directory = .ok file →
      file = cache.reference directory := by
    intro takes h
    unfold placeholderFile at h
    grind
  unfold placeholder at h
  grind

/-- The file of a layout means something, or it is a placeholder which the memory has. -/
def Node.Backed (cache : LayoutCache) (m : Memory) (n : Node) : Prop :=
  n.isLayout = true → referenceRole? n.file = none →
    ∃ directory, n.file = cache.reference directory ∧
      m.contains (cache.filePath directory) = true

namespace Node.Backed

variable {faults : Faults} {cache : LayoutCache} {allowed : String → Prop} {s t : Memory} {n : Node}
  {nodes : List Node}

/-- Placeholders stay where they are. -/
theorem mono (h : Node.Backed cache s n) (hgrows : Memory.Grows faults cache allowed s t) :
    Node.Backed cache t n := fun hlayout hrole => by
  obtain ⟨directory, hfile, hthere⟩ := h hlayout hrole
  exact ⟨directory, hfile, hgrows.contains hthere⟩

theorem all_mono (h : Node.All (Node.Backed cache s) nodes)
    (hgrows : Memory.Grows faults cache allowed s t) : Node.All (Node.Backed cache t) nodes :=
  fun n hn => (h n hn).mono hgrows

end Node.Backed

namespace Scan

open Job Memory

/-- What holds of the nodes found and of directories, and of all nodes inside these, holds of all
nodes of what was found. -/
theorem all_nodesOf {P : Node → Prop} {findings : List Finding} {scanned : List (List Node)}
    (hnode : ∀ n, Finding.node n ∈ findings → P n ∧ Node.All P n.children)
    (hfolder : ∀ name inside, P (.folder name inside))
    (hscanned : ∀ nodes ∈ scanned, Node.All P nodes) : Node.All P (nodesOf findings scanned) := by
  induction findings generalizing scanned with
  | nil => exact Node.all_nil
  | cons finding rest ih =>
    have hrest : ∀ n, Finding.node n ∈ rest → P n ∧ Node.All P n.children :=
      fun n hn => hnode n (List.mem_cons_of_mem _ hn)
    cases finding with
    | node n =>
      rw [nodesOf]
      exact Node.all_cons.2 ⟨hnode n List.mem_cons_self, ih hrest hscanned⟩
    | layout path => exact ih hrest hscanned
    | directory name path =>
      cases scanned with
      | nil => exact ih hrest hscanned
      | cons inside others =>
        obtain ⟨hinside, hothers⟩ := List.forall_mem_cons.1 hscanned
        rw [nodesOf, Node.all_append]
        refine ⟨?_, ih hrest hothers⟩
        unfold nodesOfDirectory
        split
        · exact hinside
        · exact Node.all_cons.2 ⟨⟨hfolder name inside, hinside⟩, Node.all_nil⟩

/-- A file found is a page or a not-found page, and has nothing inside. -/
theorem of_mem_node_findings {ignored : IgnoreSet} {path : String} {listing : List Listed}
    {n : Node} (h : Finding.node n ∈ listing.filterMap (finding? ignored path)) :
    n.isLayout = false ∧ n.children = [] := by
  obtain ⟨e, -, hfinding⟩ := List.mem_filterMap.1 h
  unfold finding? findingOfFile? at hfinding
  have hn : ∃ file, n = .indexPage file ∨ n = .notFound file := by grind
  obtain ⟨file, rfl | rfl⟩ := hn <;> exact ⟨rfl, rfl⟩

/-- The layout of a directory means a layout by its reference. -/
theorem referenceRole?_of_layoutPath? {ignored : IgnoreSet} {path layout : String}
    {listing : List Listed}
    (h : layoutPath? (listing.filterMap (finding? ignored path)) = some layout) :
    referenceRole? (fileReference layout) = some .layout := by
  rw [layoutPath?_findings] at h
  obtain ⟨name, hname, rfl⟩ := Option.map_eq_some_iff.1 h
  exact Folder.referenceRole?_of_mem_liveFiles (mem_liveFiles_layout_iff.2 hname)

section

variable {faults : Faults} {o : Options} {ignored : IgnoreSet}

/-- Wrapping puts a layout around the nodes that means something, or a placeholder that is there. -/
private theorem ensures_wrap_backed (path : String) {layout? : Option String} {nodes : List Node}
    {s : Memory} (hlayout : ∀ layout, layout? = some layout →
      referenceRole? (fileReference layout) = some .layout)
    (hnodes : Node.All (Node.Backed o.cache s) nodes) :
    Ensures (storage.faulty faults) (Grows faults o.cache fun _ => True)
      (wrap (o.scanSetting ignored) path layout? nodes) s fun r t =>
        ∀ all, r = .ok all → Node.All (Node.Backed o.cache t) all := by
  unfold wrap
  simp only [Options.scanSetting]
  split
  · next layout =>
    refine .done fun t ht all hall => ?_
    obtain rfl := Except.ok.inj hall
    refine Node.all_cons.2 ⟨⟨fun _ hrole => ?_, Node.Backed.all_mono hnodes ht⟩, Node.all_nil⟩
    exact absurd ((hlayout layout rfl).symm.trans hrole) (by simp)
  · split
    · refine ensures_source (listsApart_faulty faults) trivial fun t ht hthere => ?_
      cases htold : placeholder faults o.cache s
          (routeDirectory (startDirectory o.routes) path) with
      | error f => exact .done fun _ _ _ hall => by cases hall
      | ok file =>
        refine .done fun u hu all hall => ?_
        obtain rfl := Except.ok.inj hall
        have hwrapped := Node.Backed.all_mono hnodes (ht.trans hu)
        refine Node.all_cons.2 ⟨⟨fun _ _ => ?_, hwrapped⟩, Node.all_nil⟩
        exact ⟨_, eq_reference_of_placeholder htold, hu.contains (hthere file htold)⟩
    · refine .done fun t ht all hall => ?_
      obtain rfl := Except.ok.inj hall
      exact Node.Backed.all_mono hnodes ht

/-- **All placeholders that the nodes of a scan refer to are there**, whatever other tasks do. -/
theorem ensures_backed (depth : Nat) (path : String) (s : Memory) :
    Ensures (storage.faulty faults) (Grows faults o.cache fun _ => True)
      (directory (o.scanSetting ignored) depth path) s fun r t =>
        ∀ nodes, r = .ok nodes → Node.All (Node.Backed o.cache t) nodes := by
  induction depth generalizing path s with
  | zero => exact .done fun _ _ _ hnodes => by cases hnodes
  | succ depth ih =>
    have hanswer : ∀ t, ((storage.faulty faults).answer
        (.list ((o.scanSetting ignored).root.join path)) t).2 = t := fun t => by rw [answer_list]
    refine .call (fun t _ => ?_) fun t _ => ?_
    · rw [hanswer t]
      exact .refl t
    · rw [hanswer t]
      split
      · exact .done fun _ _ _ hnodes => by cases hnodes
      · next listing _ =>
        refine .fork_map _ (fun _ r u => ∀ nodes, r = .ok nodes →
            Node.All (Node.Backed o.cache u) nodes) (fun below _ => ih below t)
          (fun u scanned _ hscanned => ?_) fun _ _ _ _ _ _ _ _ _ _ hnodes => by cases hnodes
        obtain ⟨hinside, -⟩ := (List.forall₂_and_left _ _).1 (hscanned.flip.imp
          fun nodes _ h => (⟨h nodes rfl, trivial⟩ :
            Node.All (Node.Backed o.cache u) nodes ∧ True))
        refine ensures_wrap_backed path (fun layout => referenceRole?_of_layoutPath?) ?_
        refine (Node.all_perm_iff (Node.sortSiblings_perm _)).2 (all_nodesOf (fun n hn => ?_)
          (fun name inside hlayout => by cases hlayout) hinside)
        obtain ⟨hlayout, hchildren⟩ := of_mem_node_findings hn
        exact ⟨fun h => absurd (hlayout.symm.trans h) (by simp), hchildren ▸ Node.all_nil⟩

end

end Scan

/-! ### The references of a configuration -/

/-- The entry shows the file `name` of the directory that `folders` lead to, which was listed with
it: its reference leads to this file. -/
structure Options.ShowsListed (o : Options) (events : List Event) (e : Entry) (role : Convention)
    (folders : List String) (name : String) : Prop where
  listed : ∃ listing, Event.listed (o.directoryPath folders) listing ∈ events ∧
    ⟨name, false⟩ ∈ listing
  role : Convention.ofFileName? name = some role
  location : (o.root.join e.file).location = (o.directoryPath folders).location.child name

/-- A live file that was seen is one that was listed, and it is there from the start. -/
theorem Folder.SeenIn.showsListed {o : Options} {ignored : IgnoreSet} {m : Memory} {F : Folder}
    {events : List Event} (h : F.SeenIn o m) (hlistings : F.ListedIn o events) {e : Entry}
    {folders : List String} {role : Convention} {name : String}
    (hlive : (folders, role, name) ∈
      F.folders.flatMap (liveIn ignored (startDirectory o.routes)))
    (hfile : e.file = o.referenceOf folders name) :
    e.role? = some role ∧ o.ShowsListed events e role folders name ∧
      (o.root.join e.file).location ∈ m.fileLocations := by
  obtain ⟨listing, hd, hfiles⟩ := mem_flatMap_liveIn_iff.1 hlive
  obtain ⟨⟨name, isDirectory⟩, hentry, rfl, hl⟩ := mem_of_mem_liveFiles hfiles
  obtain ⟨rfl, -, hrole⟩ := liveRole?_eq_some_iff.1 hl
  obtain ⟨t, ht, hlist, hgrows⟩ := h _ hd
  have hlocation : (o.root.join e.file).location =
      (o.directoryPath folders).location.child name := by
    rw [hfile]
    exact o.location_join_referenceOf (fun n hn => (h.names.of_mem_folders hd n hn).1)
      (Memory.isName_of_list ht.lawful hlist _ hentry)
  refine ⟨?_, ⟨⟨listing, ?_, hentry⟩, hrole, hlocation⟩, ?_⟩
  · rw [Entry.role?, hfile, Options.referenceOf, pathBelow_concat]
    exact referenceRole?_of_mem_liveFiles hfiles
  · exact mem_of_listingOf? (hlistings.listingOf?_eq h.lawful hd)
  · rw [hlocation]
    exact ((hgrows.file_mem_list_iff hlist hrole).1 hentry).2

/-- An entry with a meaning shows a file that was listed, and that is there from the start. -/
theorem Folder.SeenIn.exists_showsListed {o : Options} {ignored : IgnoreSet} {m : Memory}
    {F : Folder} {events : List Event} (h : F.SeenIn o m) (hlistings : F.ListedIn o events)
    {e : Entry} {role : Convention}
    (he : e ∈ Entry.preorderAll (convert (F.nodes ignored
      (o.cache.referenceFor (startDirectory o.routes)) (startDirectory o.routes))))
    (hrole : e.role? = some role) :
    ∃ folders name, o.ShowsListed events e role folders name ∧
      (o.root.join e.file).location ∈ m.fileLocations := by
  have hfile : e.file ∈ _ :=
    (h.lawful.entryFiles hlistings).files.subset (List.mem_map_of_mem he)
  rcases List.mem_append.1 hfile with hfile | hfile
  · obtain ⟨⟨folders, meaning, name⟩, hlive, hfile⟩ := List.mem_map.1 hfile
    obtain ⟨hmeaning, hshows, hstored⟩ := h.showsListed hlistings hlive hfile.symm
    obtain rfl := Option.some.inj (hmeaning.symm.trans hrole)
    exact ⟨folders, name, hshows, hstored⟩
  · -- a placeholder means nothing
    obtain ⟨folders, -, hfile⟩ := List.mem_map.1 hfile
    rw [Entry.role?, ← hfile, referenceRole?_reference] at hrole
    cases hrole

/-- An entry that means nothing has a placeholder for its file, which is there if all are that the
nodes refer to. -/
theorem Folder.exists_placeholder_of_role?_eq_none {cache : LayoutCache} {ignored : IgnoreSet}
    {start : String} {m : Memory} {F : Folder} {e : Entry} (hcache : cache.directory ≠ "")
    (hbacked : Node.All (Node.Backed cache m)
      (F.nodes ignored (cache.referenceFor start) start))
    (he : e ∈ Entry.preorderAll (convert (F.nodes ignored (cache.referenceFor start) start)))
    (hrole : e.role? = none) :
    ∃ directory, e.file = cache.reference directory ∧
      (cache.root.join e.file).location = (cache.filePath directory).location ∧
      m.contains (cache.root.join e.file) = true := by
  obtain ⟨n, hn, hlayout, hfile, -⟩ := Folder.exists_isLayout_of_role?_eq_none he hrole
  rw [Entry.role?, hfile] at hrole
  obtain ⟨directory, hreference, hthere⟩ := hbacked n hn hlayout hrole
  have hlocation : (cache.root.join e.file).location = (cache.filePath directory).location := by
    rw [hfile, hreference]
    exact LayoutCache.location_join_reference hcache directory
  rw [Memory.contains_iff, ← hlocation, ← Memory.contains_iff] at hthere
  exact ⟨directory, hfile.trans hreference, hlocation, hthere⟩

namespace Job

open Memory

variable {o : Options} {depth : Nat} {m m' : Memory} {events : List Event} {job : Job (List Node)}
  {tree : List Node}

/-- The placeholders that the nodes of a build refer to are there. -/
theorem Run.backed {faults : Faults}
    (hrun : Run (storage.faulty faults) (FileRoutes.buildTree o depth) m events job m')
    (hresult : job.result? = some (.ok tree)) : Node.All (Node.Backed o.cache m') tree := by
  have hensures : Ensures (storage.faulty faults) (Grows faults o.cache fun _ => True)
      (FileRoutes.buildTree o depth) m fun r t =>
        ∀ nodes, r = .ok nodes → Node.All (Node.Backed o.cache t) nodes := by
    unfold FileRoutes.buildTree
    cases IgnoreSet.ofTexts o.ignored with
    | ok ignored => exact Scan.ensures_backed depth _ m
    | error f => exact .done fun _ _ _ hnodes => by cases hnodes
  exact (hensures.run hrun).2.post_of_result? hresult tree rfl

/-- **Every reference leads to something that is there**, in every run of a build that returns a
tree on a memory, unless the cache has an empty text for its directory. The reference of an entry
with an authored file leads to the file of that name in a directory that was listed with it, and
this is still a file. The reference of any other entry leads to a placeholder. -/
theorem Run.references_resolve (hm : m.Reachable) (hcache : o.cache.directory ≠ "")
    (hrun : Run storage (FileRoutes.buildTree o depth) m events job m')
    (hresult : job.result? = some (.ok tree)) :
    ∀ e ∈ Entry.preorderAll (convert tree), m'.contains (o.root.join e.file) = true ∧
      (∀ role, e.role? = some role → ∃ folders name, o.ShowsListed events e role folders name ∧
        m'.isFile (o.root.join e.file).location = true) ∧
      (e.role? = none → ∃ directory, e.file = o.cache.reference directory ∧
        (o.root.join e.file).location = (o.cache.filePath directory).location) := by
  obtain ⟨ignored, F, -, hF, rfl, hlistings⟩ :=
    hrun.exists_lawful_folder hresult fun _ _ => hrun.lawful_listed hm
  have hseen : F.SeenIn o m := fun d hd =>
    hrun.exists_list_eq hm (mem_of_listingOf? (hlistings.listingOf?_eq hF hd))
  rw [← storage.faulty_none] at hrun
  intro e he
  cases hrole : e.role? with
  | none =>
    obtain ⟨directory, hfile, hlocation, hthere⟩ :=
      Folder.exists_placeholder_of_role?_eq_none hcache (hrun.backed hresult) he hrole
    exact ⟨hthere, by simp, fun _ => ⟨directory, hfile, hlocation⟩⟩
  | some role =>
    obtain ⟨folders, name, hshows, hstored⟩ := hseen.exists_showsListed hlistings he hrole
    have hthere := isFile_iff.2 (hrun.grows.mem_fileLocations_of_mem hstored)
    refine ⟨by simp [contains, hthere], fun other hother => ?_, by simp⟩
    obtain rfl := Option.some.inj hother
    exact ⟨folders, name, hshows, hthere⟩

/-- The references of the users' routes lead to files. -/
theorem Run.references_resolve_users : ∃ events job m',
    Run storage (FileRoutes.buildTree {} 4) users events job m' ∧
      job.result? = some (.ok usersTree) ∧
      ∀ e ∈ Entry.preorderAll (convert usersTree),
        m'.contains (Path.join ⟨"./app"⟩ e.file) = true := by
  obtain ⟨events, job, m', hrun, hresult⟩ := exists_run_users
  have hcache : (Options.cache {}).directory ≠ "" := by decide
  exact ⟨events, job, m', hrun, hresult, fun e he =>
    (Run.references_resolve (reachable_ofFiles _) hcache hrun hresult e he).1⟩

end Job

end FileRoutes
