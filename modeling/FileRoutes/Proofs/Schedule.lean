import FileRoutes.Proofs.Placeholders

/-!
# The order of calls does not matter

The tasks of a scan make their calls in any order. Where placeholders are kept outside the routes
directory, what a scan is shown of a memory is the same at any time, and so is what it is told of
its placeholders. So each scan returns what can be read off the memory it started from **depth
first**: of the directories of a directory the first that fails decides, and a placeholder for the
directory itself comes after them. The placeholders it has made sure of are known beforehand as
well, and with them the files that are there at the end.

Memories that show a scan the same are **alike** (`Options.Alike`): what is read off one of them is
read off the other (`Memory.WellFormed.build_congr`), for any bound on the depth that a scan of
either cannot reach. In particular the bound cuts nothing off (`Options.depthFirst_eq_of_le`).

Main result: `Job.Run.schedule_independent`.
-/

namespace FileRoutes

/-! ### Depth first -/

namespace Scan

variable (faults : Faults) (o : Options) (ignored : IgnoreSet) (m : Memory)

/-- What a scan is shown of a directory. -/
def shownListing (path : String) : Except Fault (List Listed) :=
  match faults .list (o.root.join path) with
  | some f => .error f
  | none => m.list (o.root.join path)

/-- The nodes of a directory, in its layout or in a placeholder if they need one. -/
def wrapped (path : String) (layout? : Option String) (nodes : List Node) :
    Except Fault (List Node) :=
  match layout? with
  | some layout => .ok [.layout (fileReference layout) nodes]
  | none =>
    if needsPlaceholder nodes then
      match m.placeholder faults o.cache (routeDirectory (startDirectory o.routes) path) with
      | .ok file => .ok [.layout file nodes]
      | .error f => .error f
    else .ok nodes

/-- The directory, if its nodes need a placeholder. -/
def wanted (path : String) (layout? : Option String) (nodes : List Node) : List String :=
  if layout?.isNone && needsPlaceholder nodes then
    [routeDirectory (startDirectory o.routes) path]
  else []

/-- What the scan of a directory returns after it has found this, given the scans of the
directories found: of those the first fault decides, and a placeholder comes after them. -/
def gathered (scanned : String → Except Fault (List Node)) (path : String)
    (findings : List Finding) : Except Fault (List Node) :=
  match Job.gather ((directoryPaths findings).map scanned) with
  | .error f => .error f
  | .ok inside =>
    wrapped faults o m path (layoutPath? findings) (Node.sortSiblings (nodesOf findings inside))

/-- Only the scans of the directories found matter. -/
theorem gathered_congr {scanned other : String → Except Fault (List Node)} {path : String}
    {findings : List Finding} (h : ∀ below ∈ directoryPaths findings, scanned below = other below) :
    gathered faults o m scanned path findings = gathered faults o m other path findings := by
  rw [gathered, gathered, List.map_congr_left h]

/-- What a scan of a directory returns. -/
def depthFirst : (depth : Nat) → (path : String) → Except Fault (List Node)
  | 0, path => .error (.tooDeep (o.root.join path))
  | depth + 1, path =>
    match shownListing faults o m path with
    | .error f => .error (.routeDirectory (o.root.join path) f)
    | .ok listing =>
      gathered faults o m (depthFirst depth) path (listing.filterMap (finding? ignored path))

/-- The directories whose placeholders the scan of a directory makes sure of after it has found
this, given those of the directories found. -/
def wantedAfter (scanned : String → Except Fault (List Node)) (below : String → List String)
    (path : String) (findings : List Finding) : List String :=
  (directoryPaths findings).flatMap below ++
    match Job.gather ((directoryPaths findings).map scanned) with
    | .error _ => []
    | .ok inside =>
      wanted o path (layoutPath? findings) (Node.sortSiblings (nodesOf findings inside))

/-- Only the scans of the directories found matter. -/
theorem wantedAfter_congr {scanned other : String → Except Fault (List Node)}
    {below inOther : String → List String} {path : String} {findings : List Finding}
    (h : ∀ path' ∈ directoryPaths findings, scanned path' = other path')
    (hbelow : ∀ path' ∈ directoryPaths findings, below path' = inOther path') :
    wantedAfter o scanned below path findings = wantedAfter o other inOther path findings := by
  rw [wantedAfter, wantedAfter, List.map_congr_left h, List.flatMap_congr hbelow]

/-- The directories whose placeholders a scan makes sure of, unless it fails before. -/
def wantedBelow : (depth : Nat) → (path : String) → List String
  | 0, _ => []
  | depth + 1, path =>
    match shownListing faults o m path with
    | .error _ => []
    | .ok listing =>
      wantedAfter o (depthFirst faults o ignored m depth) (wantedBelow depth) path
        (listing.filterMap (finding? ignored path))

end Scan

/-- What a build of the route tree returns, read off the memory that it starts from. -/
def Options.depthFirst (o : Options) (faults : Faults) (m : Memory) (depth : Nat) :
    Except Fault (List Node) :=
  match IgnoreSet.ofTexts o.ignored with
  | .ok ignored => Scan.depthFirst faults o ignored m depth (startDirectory o.routes)
  | .error f => .error f

/-- The directories whose placeholders a build of the route tree makes sure of. -/
def Options.wanted (o : Options) (faults : Faults) (m : Memory) (depth : Nat) : List String :=
  match IgnoreSet.ofTexts o.ignored with
  | .ok ignored => Scan.wantedBelow faults o ignored m depth (startDirectory o.routes)
  | .error _ => []

/-! ### What is shown of a directory -/

/-- The location is that of a directory or of something in it. -/
def Location.Below (directory l : Location) : Prop :=
  directory.absolute = l.absolute ∧ directory.names <+: l.names

instance (directory l : Location) : Decidable (directory.Below l) :=
  inferInstanceAs (Decidable (_ ∧ _))

/-- What is below a directory in another one is below that one. -/
theorem Location.Below.of_descend {directory l : Location} {names : List String}
    (h : (directory.descend names).Below l) : directory.Below l :=
  ⟨h.1, (List.prefix_append _ _).trans h.2⟩

namespace Memory

variable {faults : Faults} {cache : LayoutCache} {allowed : String → Prop} {s t : Memory}

/-- Growing outside a directory leaves what is in it as it is. -/
theorem Grows.list_eq (h : Grows faults cache allowed s t) {p : Path}
    (hp : ¬ p.location.Below cache.path.location) : t.list p = s.list p := by
  obtain ⟨made, hdirs, hmade⟩ := h.exists_dirs
  obtain ⟨written, hfiles, hwritten⟩ := h.files
  -- the directories made hold the cache, so none of them is below the path
  have hnone : ∀ l ∈ made, l ≠ p.location ∧ entryName? p.location l = none := by
    intro l hl
    obtain ⟨habsolute, hbegins⟩ := Location.names_prefix_of_mem_withAncestors (hmade l hl)
    refine ⟨?_, ?_⟩
    · rintro rfl
      exact hp ⟨habsolute, hbegins⟩
    · rw [Option.eq_none_iff_forall_ne_some]
      intro name hname
      obtain ⟨rfl, -⟩ := entryName?_eq_some_iff.1 hname
      exact hp ⟨habsolute, (List.prefix_append _ _).trans hbegins⟩
  have hplaceholder : ∀ file ∈ written, entryName? p.location file.1 = none := by
    intro file hfile
    obtain ⟨d, -, rfl, -⟩ := hwritten file hfile
    rw [Option.eq_none_iff_forall_ne_some]
    intro name hname
    obtain ⟨hchild, -⟩ := entryName?_eq_some_iff.1 hname
    have hparent := congrArg Location.parent? hchild
    rw [cache.location_filePath, Location.parent?_child, Location.parent?_child] at hparent
    exact hp (Option.some.inj hparent ▸ ⟨rfl, List.prefix_rfl⟩)
  have hdirectory : t.isDirectory p.location = s.isDirectory p.location := by
    rw [Bool.eq_iff_iff, isDirectory_iff, isDirectory_iff, hdirs, List.mem_append, or_iff_left]
    exact fun hmem => (hnone _ hmem).1 rfl
  have hentries : t.entriesOf p.location = s.entriesOf p.location := by
    have hmadenone := List.filterMap_eq_nil_iff.2 fun l hl => (hnone l hl).2
    have hwrittennone : (written.map Prod.fst).filterMap (entryName? p.location) = [] :=
      List.filterMap_eq_nil_iff.2 (List.forall_mem_map.2 hplaceholder)
    simp only [entriesOf, hdirs, hfiles, List.map_append, List.filterMap_append, hmadenone,
      hwrittennone, List.append_nil]
  rw [list, list, hdirectory, hentries]

/-- The files that are there at the end: those that were there, and each placeholder that was made
sure of and was not. -/
theorem Grows.mem_files_iff (h : Grows faults cache allowed s t)
    (hall : ∀ directory, allowed directory → t.contains (cache.filePath directory) = true)
    {file : Location × String} :
    file ∈ t.files ↔ file ∈ s.files ∨ ∃ directory, allowed directory ∧
      s.contains (cache.filePath directory) = false ∧
      file = ((cache.filePath directory).location, placeholderContents) := by
  obtain ⟨written, hfiles, hwritten⟩ := h.files
  constructor
  · intro hfile
    rw [hfiles] at hfile
    refine (List.mem_append.1 hfile).imp id fun hnew => ?_
    obtain ⟨d, hd, heq, hs, -⟩ := hwritten file hnew
    exact ⟨d, hd, hs, heq⟩
  · rintro (hold | ⟨d, hd, hs, rfl⟩)
    · rw [hfiles]
      exact List.mem_append_left _ hold
    · exact (h.of_contains_filePath hs (hall d hd)).2.2

end Memory

/-! ### Memories that look alike -/

/-- To a build of the route tree the memories look alike: they list the same in the routes directory
and tell the same of placeholders. -/
structure Options.Alike (o : Options) (faults : Faults) (s t : Memory) : Prop where
  list : ∀ {names : List String}, (∀ name ∈ names, IsName name ∧ name ≠ ".") →
    t.list (o.root.join (pathBelow (startDirectory o.routes) names)) =
      s.list (o.root.join (pathBelow (startDirectory o.routes) names))
  placeholder : ∀ directory,
    t.placeholder faults o.cache directory = s.placeholder faults o.cache directory

namespace Options.Alike

variable {faults : Faults} {o : Options} {allowed : String → Prop} {s t u : Memory}

theorem refl (s : Memory) : o.Alike faults s s :=
  ⟨fun _ => rfl, fun _ => rfl⟩

theorem trans (h : o.Alike faults s t) (k : o.Alike faults t u) : o.Alike faults s u :=
  ⟨fun hnames => (k.list hnames).trans (h.list hnames),
    fun directory => (k.placeholder directory).trans (h.placeholder directory)⟩

/-- A memory that has grown looks as it did, where the layout cache is not in the routes
directory. -/
theorem of_grows (h : Memory.Grows faults o.cache allowed s t)
    (hcache : ¬ o.routesLocation.Below o.cache.path.location) : o.Alike faults s t := by
  refine ⟨fun {names} hnames => h.list_eq fun hbelow => hcache ?_,
    fun directory => (Memory.placeholder_congr h directory).symm⟩
  rw [o.location_join_pathBelow hnames] at hbelow
  exact hbelow.of_descend

theorem shownListing_eq (h : o.Alike faults s t) {names : List String}
    (hnames : ∀ name ∈ names, IsName name ∧ name ≠ ".") :
    Scan.shownListing faults o t (pathBelow (startDirectory o.routes) names) =
      Scan.shownListing faults o s (pathBelow (startDirectory o.routes) names) := by
  rw [Scan.shownListing, Scan.shownListing, h.list hnames]

theorem gathered_eq (h : o.Alike faults s t) (scanned : String → Except Fault (List Node))
    (path : String) (findings : List Scan.Finding) :
    Scan.gathered faults o t scanned path findings =
      Scan.gathered faults o s scanned path findings := by
  unfold Scan.gathered Scan.wrapped
  simp only [h.placeholder]

end Options.Alike

/-! ### The bound on the depth -/

namespace Memory

/-- No directory lies deeper than the deepest. -/
theorem length_le_depth {m : Memory} {l : Location} (h : l ∈ m.dirs) :
    l.names.length ≤ m.depth := by
  have hlength : l.names.length ∈ m.dirs.map fun l => l.names.length := List.mem_map_of_mem h
  rw [depth, List.foldl_max]
  exact (List.le_max?_getD_of_mem hlength).trans (le_max_right 0 _)

end Memory

namespace Scan

variable {faults : Faults} {o : Options} {ignored : IgnoreSet} {m : Memory}

/-- What is shown without a fault is what is listed. -/
theorem list_of_shownListing {path : String} {listing : List Listed}
    (h : shownListing faults o m path = .ok listing) : m.list (o.root.join path) = .ok listing := by
  unfold shownListing at h
  split at h
  · simp at h
  · exact h

/-- The directories to scan are entries of the listing that are not passed over. -/
theorem exists_of_mem_directoryPaths (hm : ∀ l, m.Stores l → l.Lawful) {names : List String}
    {listing : List Listed} {below : String}
    (hlist : m.list (o.root.join (pathBelow (startDirectory o.routes) names)) = .ok listing)
    (h : below ∈ directoryPaths (listing.filterMap
      (finding? ignored (pathBelow (startDirectory o.routes) names)))) :
    ∃ name, (IsName name ∧ name ≠ ".") ∧ ⟨name, true⟩ ∈ listing ∧
      ignored.ignoresDirectory below = false ∧
      below = pathBelow (startDirectory o.routes) (names ++ [name]) := by
  obtain ⟨finding, hfinding, hbelow⟩ := List.mem_filterMap.1 h
  obtain ⟨e, he, hfinding⟩ := List.mem_filterMap.1 hfinding
  cases finding with
  | node n => simp at hbelow
  | layout file => simp at hbelow
  | directory name path' =>
    obtain rfl : path' = below := by simpa using hbelow
    obtain ⟨rfl, rfl, hopen⟩ := Folder.finding?_eq_directory_iff.1 hfinding
    refine ⟨name, Memory.isName_of_list hm hlist _ he, he, hopen, ?_⟩
    rw [pathBelow_concat]

/-- A directory that is listed in another one is stored. -/
theorem descend_mem_dirs_of_mem_list {names : List String} {name : String} {listing : List Listed}
    (hnames : ∀ name ∈ names, IsName name ∧ name ≠ ".")
    (hlist : m.list (o.root.join (pathBelow (startDirectory o.routes) names)) = .ok listing)
    (he : ⟨name, true⟩ ∈ listing) : o.routesLocation.descend (names ++ [name]) ∈ m.dirs := by
  have hstored := ((Memory.mem_list_iff hlist).1 he).2
  rwa [if_pos rfl, o.location_join_pathBelow hnames, Location.child_descend] at hstored

/-- Two scans that are shown the same and are told the same of their placeholders return the same
and want the same placeholders, if both may go deeper than the deepest directory. -/
theorem scan_congr (hm : m.WellFormed) {t : Memory} (h : o.Alike faults m t) {names : List String}
    {depth depth' : Nat} (hnames : ∀ name ∈ names, IsName name ∧ name ≠ ".")
    (hdepth : 0 < depth ∧ m.depth < (o.routesLocation.descend names).names.length + depth)
    (hdepth' : 0 < depth' ∧ t.depth < (o.routesLocation.descend names).names.length + depth') :
    depthFirst faults o ignored t depth' (pathBelow (startDirectory o.routes) names) =
        depthFirst faults o ignored m depth (pathBelow (startDirectory o.routes) names) ∧
      wantedBelow faults o ignored t depth' (pathBelow (startDirectory o.routes) names) =
        wantedBelow faults o ignored m depth (pathBelow (startDirectory o.routes) names) := by
  induction depth generalizing names depth' with
  | zero => omega
  | succ depth ih =>
    obtain _ | depth' := depth'
    · omega
    rw [depthFirst, depthFirst, wantedBelow, wantedBelow, h.shownListing_eq hnames]
    cases hshown : shownListing faults o m (pathBelow (startDirectory o.routes) names) with
    | error f => exact ⟨rfl, rfl⟩
    | ok listing =>
      have hlist := list_of_shownListing hshown
      have hlist' := (h.list hnames).trans hlist
      have hbelow : ∀ below ∈ directoryPaths (listing.filterMap
          (finding? ignored (pathBelow (startDirectory o.routes) names))),
          depthFirst faults o ignored t depth' below = depthFirst faults o ignored m depth below ∧
            wantedBelow faults o ignored t depth' below =
              wantedBelow faults o ignored m depth below := by
        intro below hmem
        obtain ⟨name, hname, he, -, rfl⟩ := exists_of_mem_directoryPaths hm.lawful hlist hmem
        -- the directory is stored in both memories, so it is not deeper than the deepest
        have hlength := Memory.length_le_depth (descend_mem_dirs_of_mem_list hnames hlist he)
        have hlength' := Memory.length_le_depth (descend_mem_dirs_of_mem_list hnames hlist' he)
        have hlonger := o.routesLocation.length_names_descend_concat names name
        refine ih ?_ (by omega) (by omega)
        rw [List.forall_mem_append]
        exact ⟨hnames, by simpa using hname⟩
      have hscans := fun below hmem => (hbelow below hmem).1
      exact ⟨(h.gathered_eq _ _ _).trans (gathered_congr faults o m hscans),
        wantedAfter_congr o hscans fun below hmem => (hbelow below hmem).2⟩

end Scan

/-- Builds of memories that look alike return the same and want the same placeholders. -/
theorem Memory.WellFormed.build_congr {o : Options} {faults : Faults} {m t : Memory}
    (hm : m.WellFormed) (h : o.Alike faults m t) {depth depth' : Nat}
    (hdepth : m.scanDepth o ≤ depth) (hdepth' : t.scanDepth o ≤ depth') :
    o.depthFirst faults t depth' = o.depthFirst faults m depth ∧
      o.wanted faults t depth' = o.wanted faults m depth := by
  unfold Options.depthFirst Options.wanted
  cases IgnoreSet.ofTexts o.ignored with
  | error f => exact ⟨rfl, rfl⟩
  | ok ignored =>
    have hpositive : ∀ {s : Memory} {n : Nat}, s.scanDepth o ≤ n → 0 < n ∧ s.depth < n := by
      intro s n hn
      unfold Memory.scanDepth at hn
      omega
    have hdeep := hpositive hdepth
    have hdeep' := hpositive hdepth'
    have hscans := @Scan.scan_congr faults o ignored m hm t h [] depth depth' (by simp)
      ⟨hdeep.1, by omega⟩ ⟨hdeep'.1, by omega⟩
    exact hscans

/-- **The bound on the depth cuts nothing off**: a build that may go deeper returns the same. -/
theorem Options.depthFirst_eq_of_le {o : Options} {m : Memory} (hm : m.WellFormed)
    (faults : Faults) {depth : Nat} (h : m.scanDepth o ≤ depth) :
    o.depthFirst faults m depth = o.depthFirst faults m (m.scanDepth o) := by
  exact (hm.build_congr (.refl m) le_rfl h).1

/-! ### What a scan ensures -/

namespace Scan

open Job Memory

section

variable {σ : Type} (st : Storage (StateM σ)) (R : σ → σ → Prop) (faults : Faults) (o : Options)
  (m : Memory)

/-- From a state on, whatever other tasks do, a scan is shown what the memory lists. -/
def Shows (s₀ : σ) : Prop :=
  ∀ {names : List String}, (∀ name ∈ names, IsName name ∧ name ≠ ".") → ∀ s, R s₀ s →
    (st.answer (.list (o.root.join (pathBelow (startDirectory o.routes) names))) s).1 =
        shownListing faults o m (pathBelow (startDirectory o.routes) names) ∧
      R s (st.answer (.list (o.root.join (pathBelow (startDirectory o.routes) names))) s).2

/-- From a state on, whatever other tasks do, a scan is told of the placeholders for allowed
directories what the memory tells of them, and those that it is given are there ever after. -/
structure Tells (allowed : String → Prop) (there : String → σ → Prop) (s₀ : σ) : Prop where
  source : ∀ {directory : String} {s : σ} {next : Except Fault String → Job (List Node)}
    {post : Except Fault (List Node) → σ → Prop}, allowed directory → R s₀ s →
    (∀ t, R s t →
      (∀ file, m.placeholder faults o.cache directory = .ok file → there directory t) →
      Ensures st R (next (m.placeholder faults o.cache directory)) t post) →
    Ensures st R (o.cache.source directory next) s post
  stays : ∀ {directory : String} {s t : σ}, R s t → there directory s → there directory t

end

variable {σ : Type} {st : Storage (StateM σ)} {R : σ → σ → Prop} {faults : Faults} {o : Options}
  {ignored : IgnoreSet} {m : Memory} {s₀ s : σ} {allowed : String → Prop}
  {there : String → σ → Prop}

/-- Wrapping returns what can be told beforehand, and the placeholder that it wants is there. -/
theorem ensures_wrap (htells : Tells st R faults o m allowed there s₀) {path : String}
    {layout? : Option String} {nodes : List Node} (hs : R s₀ s)
    (hallowed : ∀ d ∈ wanted o path layout? nodes, allowed d) :
    Ensures st R (wrap (o.scanSetting ignored) path layout? nodes) s fun r t =>
      r = wrapped faults o m path layout? nodes ∧
        ∀ a, r = .ok a → ∀ d ∈ wanted o path layout? nodes, there d t := by
  unfold wrap wrapped
  cases layout? with
  | some layout => exact .done fun t _ => ⟨rfl, fun _ _ => by simp [wanted]⟩
  | none =>
    cases hneeds : needsPlaceholder nodes with
    | false =>
      simp only [Bool.false_eq_true, if_false]
      exact .done fun t _ => ⟨rfl, fun _ _ => by simp [wanted, hneeds]⟩
    | true =>
      simp only [if_true]
      have hwanted : wanted o path none nodes =
          [routeDirectory (startDirectory o.routes) path] := by simp [wanted, hneeds]
      rw [hwanted] at hallowed ⊢
      simp only [Options.scanSetting]
      refine htells.source (hallowed _ (List.mem_singleton_self _)) hs fun t ht hthere => ?_
      cases htold : m.placeholder faults o.cache
          (routeDirectory (startDirectory o.routes) path) with
      | error f => exact .done fun u _ => ⟨rfl, fun _ hok => by cases hok⟩
      | ok file =>
        refine .done fun u hu => ⟨rfl, fun _ _ d hd => ?_⟩
        rw [List.mem_singleton.1 hd]
        exact htells.stays hu (hthere file htold)

/-- The scan has returned what can be read off the memory, and the placeholders that it wants are
there. -/
private def Told (faults : Faults) (o : Options) (ignored : IgnoreSet) (m : Memory)
    (there : String → σ → Prop) (depth : Nat) (path : String) (r : Except Fault (List Node))
    (t : σ) : Prop :=
  r = depthFirst faults o ignored m depth path ∧
    ∀ nodes, r = .ok nodes → ∀ d ∈ wantedBelow faults o ignored m depth path, there d t

variable [IsPreorder σ R]

/-- Once a directory is listed, the scans of the directories in it come first. -/
private theorem ensures_found (htells : Tells st R faults o m allowed there s₀) {depth : Nat}
    {path : String} {findings : List Finding} (hs : R s₀ s)
    (hchildren : ∀ below ∈ directoryPaths findings,
      Ensures st R (directory (o.scanSetting ignored) depth below) s
        (Told faults o ignored m there depth below))
    (hallowed : ∀ d ∈ wantedAfter o (depthFirst faults o ignored m depth)
      (wantedBelow faults o ignored m depth) path findings, allowed d) :
    Ensures st R
      (.fork ((directoryPaths findings).map (directory (o.scanSetting ignored) depth))
        fun scanned => wrap (o.scanSetting ignored) path (layoutPath? findings)
          (Node.sortSiblings (nodesOf findings scanned))) s fun r t =>
      r = gathered faults o m (depthFirst faults o ignored m depth) path findings ∧
        ∀ nodes, r = .ok nodes → ∀ d ∈ wantedAfter o (depthFirst faults o ignored m depth)
          (wantedBelow faults o ignored m depth) path findings, there d t := by
  refine .fork_known hchildren (fun t scanned ht hgather hthere => ?_) fun t f _ hgather => ?_
  · simp only [wantedAfter, gathered, hgather, List.forall_mem_append] at hallowed ⊢
    refine (ensures_wrap htells (trans_of R hs ht) hallowed.2).imp fun r u hu hwrapped => ?_
    refine ⟨hwrapped.1, fun nodes hnodes => ⟨fun d hd => ?_, hwrapped.2 nodes hnodes⟩⟩
    obtain ⟨below, hbelow, hwanted⟩ := List.mem_flatMap.1 hd
    exact htells.stays hu (hthere below hbelow d hwanted)
  · refine ⟨?_, fun _ hok => by cases hok⟩
    rw [gathered, hgather]

/-- A scan of a directory returns what can be read off the memory that it is shown, and the
placeholders that it wants are there. -/
private theorem ensures_directory (hm : m.WellFormed) (hshows : Shows st R faults o m s₀)
    (htells : Tells st R faults o m allowed there s₀) {depth : Nat} {names : List String}
    (hnames : ∀ name ∈ names, IsName name ∧ name ≠ ".") (hs : R s₀ s)
    (hallowed : ∀ d ∈ wantedBelow faults o ignored m depth
      (pathBelow (startDirectory o.routes) names), allowed d) :
    Ensures st R
      (directory (o.scanSetting ignored) depth (pathBelow (startDirectory o.routes) names)) s
      (Told faults o ignored m there depth (pathBelow (startDirectory o.routes) names)) := by
  induction depth generalizing names s with
  | zero => exact .done fun t _ => ⟨rfl, fun _ hok => by cases hok⟩
  | succ depth ih =>
    refine .call (fun t ht => (hshows hnames t (trans_of R hs ht)).2) fun t ht => ?_
    obtain ⟨hreply, hkept⟩ := hshows hnames t (trans_of R hs ht)
    have hafter := trans_of R (trans_of R hs ht) hkept
    simp only [Options.scanSetting] at hreply hafter ⊢
    rw [hreply]
    cases hshown : shownListing faults o m (pathBelow (startDirectory o.routes) names) with
    | error f =>
      refine .done fun u _ => ⟨?_, fun _ hok => by cases hok⟩
      rw [depthFirst, hshown]
    | ok listing =>
      rw [wantedBelow, hshown] at hallowed
      refine (ensures_found htells hafter (fun below hbelow => ?_) hallowed).imp fun r u _ h => by
        rwa [Told, depthFirst, wantedBelow, hshown]
      obtain ⟨name, hname, -, -, rfl⟩ :=
        exists_of_mem_directoryPaths hm.lawful (list_of_shownListing hshown) hbelow
      refine ih ?_ hafter fun d hd => hallowed d ?_
      · rw [List.forall_mem_append]
        exact ⟨hnames, by simpa using hname⟩
      · exact List.mem_append_left _ (List.mem_flatMap.2 ⟨_, hbelow, hd⟩)

/-- A build of the route tree returns what can be read off a memory, and makes sure of the
placeholders that it wants, wherever it is shown and told what the memory shows and tells. -/
theorem ensures_buildTree_of_tells (hm : m.WellFormed) {depth : Nat}
    (hshows : Shows st R faults o m s₀) (htells : Tells st R faults o m allowed there s₀)
    (hallowed : ∀ d ∈ o.wanted faults m depth, allowed d) :
    Ensures st R (buildTree o depth) s₀ fun r t => r = o.depthFirst faults m depth ∧
      ∀ tree, r = .ok tree → ∀ d ∈ o.wanted faults m depth, there d t := by
  unfold buildTree Options.depthFirst Options.wanted at *
  cases hignored : IgnoreSet.ofTexts o.ignored with
  | error f => exact .done fun t _ => ⟨rfl, fun _ hok => by cases hok⟩
  | ok ignored =>
    rw [hignored] at hallowed
    exact @ensures_directory σ st R faults o ignored m s₀ s₀ allowed there _ hm hshows htells depth
      [] (by simp) (refl_of R s₀) hallowed

/-! ### Memories that grow -/

/-- A memory that grows tells of placeholders what it told at first. -/
theorem tells_of_grows {st : Storage (StateM Memory)} (hst : ListsApart faults st) :
    Tells st (Grows faults o.cache allowed) faults o m allowed
      (fun d t => t.contains (o.cache.filePath d) = true) m where
  source hallowed hs hnext := by
    refine ensures_source hst hallowed fun t ht hthere => ?_
    rw [← placeholder_congr hs] at hthere ⊢
    exact hnext t ht hthere
  stays ht hthere := ht.contains hthere

/-- A memory that looks alike while it grows shows what it showed at first. -/
theorem shows_of_alike (halike : ∀ t, Grows faults o.cache allowed m t → o.Alike faults m t) :
    Shows (storage.faulty faults) (Grows faults o.cache allowed) faults o m m := by
  intro names hnames t ht
  rw [answer_list, (halike t ht).list hnames]
  refine ⟨?_, .refl t⟩
  cases hfault : faults .list (o.root.join (pathBelow (startDirectory o.routes) names)) <;>
    simp only [shownListing, hfault]

end Scan

/-! ### Every order of calls -/

namespace Job

open Memory Scan

variable {faults : Faults} {o : Options} {m m' : Memory} {depth : Nat}

/-- A build of the route tree returns what can be read off the memory that it starts from, and makes
sure of the placeholders that it wants. -/
theorem ensures_buildTree_wanted (hm : m.WellFormed)
    (hcache : ¬ o.routesLocation.Below o.cache.path.location) :
    Ensures (storage.faulty faults) (Grows faults o.cache (· ∈ o.wanted faults m depth))
      (buildTree o depth) m fun r t => r = o.depthFirst faults m depth ∧ ∀ tree, r = .ok tree →
        ∀ d ∈ o.wanted faults m depth, t.contains (o.cache.filePath d) = true :=
  ensures_buildTree_of_tells hm (shows_of_alike fun _ ht => .of_grows ht hcache)
    (tells_of_grows (listsApart_faulty faults)) fun _ hd => hd

/-- The placeholders that a build makes sure of are known beforehand. -/
theorem ensures_buildTree (hm : m.WellFormed)
    (hcache : ¬ o.routesLocation.Below o.cache.path.location) :
    ∃ directories : List String,
      Ensures (storage.faulty faults) (Grows faults o.cache (· ∈ directories)) (buildTree o depth) m
        fun r t => r = o.depthFirst faults m depth ∧ ∀ tree, r = .ok tree →
          ∀ d ∈ directories, t.contains (o.cache.filePath d) = true :=
  ⟨_, ensures_buildTree_wanted hm hcache⟩

/-- **The order of calls does not matter.** Where the layout cache is not in the routes directory, a
build of the route tree has in every order of its tasks' calls the result that it has call after
call, which is that of the depth-first scan, and if it succeeds, the files are the same as well.
Whatever the order, it comes to a result. -/
theorem Run.schedule_independent (hm : m.Reachable)
    (hcache : ¬ o.routesLocation.Below o.cache.path.location) {events : List Event}
    {job : Job (List Node)}
    (hrun : Run (storage.faulty faults) (buildTree o depth) m events job m') :
    let sequential := ((buildTree o depth).run (storage.faulty faults)).run m
    sequential.1 = o.depthFirst faults m depth ∧
      (∀ r, job.result? = some r → r = sequential.1 ∧ ∀ tree, r = .ok tree →
        ∀ file, file ∈ m'.files ↔ file ∈ sequential.2.files) ∧
      ((∃ r, job.result? = some r) ∨ ∃ next, StepsTo (storage.faulty faults) (job, m') next) ∧
      Acc (fun b a => StepsTo (storage.faulty faults) a b) (job, m') := by
  intro sequential
  obtain ⟨directories, hensures⟩ :=
    @ensures_buildTree faults o m depth hm.wellFormed hcache
  -- what is known beforehand holds of every run, that of one call after another included
  have hresult : ∀ {events job m'},
      Run (storage.faulty faults) (buildTree o depth) m events job m' →
      ∀ r, job.result? = some r → r = o.depthFirst faults m depth ∧ ∀ tree, r = .ok tree →
        ∀ file, file ∈ m'.files ↔ file ∈ m.files ∨ ∃ d ∈ directories,
          m.contains (o.cache.filePath d) = false ∧
            file = ((o.cache.filePath d).location, placeholderContents) := by
    intro events job m' hrun r hr
    obtain ⟨hgrows, hjob⟩ := hensures.run hrun
    obtain ⟨hfirst, hthere⟩ := hjob.post_of_result? hr
    exact ⟨hfirst, fun tree htree file => hgrows.mem_files_iff (hthere tree htree)⟩
  obtain ⟨events₁, job₁, hrun₁, hr₁⟩ :=
    exists_run_sequential (storage.faulty faults) (buildTree o depth) m
  obtain ⟨hfirst₁, hfiles₁⟩ := hresult hrun₁ _ hr₁
  refine ⟨hfirst₁, fun r hr => ?_, result?_isSome_or_exists_step _ job m',
    (wellFounded_stepsTo _).apply _⟩
  obtain ⟨hfirst, hfiles⟩ := hresult hrun r hr
  have hsame : r = sequential.1 := hfirst.trans hfirst₁.symm
  exact ⟨hsame, fun tree htree file =>
    (hfiles tree htree file).trans (hfiles₁ tree (hsame ▸ htree) file).symm⟩

/-- The users' routes are built alike in every order of calls. -/
theorem Run.schedule_independent_users : ∃ events job m',
    Run (storage.faulty fun _ _ => none) (buildTree {} 4) users events job m' ∧
      job.result? = some (.ok usersTree) ∧
      Options.depthFirst {} (fun _ _ => none) users 4 = .ok usersTree ∧
      ∀ file, file ∈ m'.files ↔ file ∈ (((buildTree {} 4).run storage).run users).2.files := by
  obtain ⟨events, job, m', hrun, hresult⟩ := exists_run_users
  rw [← storage.faulty_none] at hrun
  obtain ⟨hfirst, hsame, -⟩ := Run.schedule_independent (reachable_ofFiles _) (by decide) hrun
  obtain ⟨htree, hfiles⟩ := hsame _ hresult
  exact ⟨events, job, m', hrun, hresult, hfirst.symm.trans htree.symm, hfiles _ rfl⟩

end Job

end FileRoutes
