import FileRoutes.Proofs.Listings

/-!
# What a memory stores

A memory that was built up call by call is **well formed**: nothing is stored twice, every name on
the way to a stored location is a name of an entry, and everything stored lies in a stored
directory or at the top (`Memory.Reachable.wellFormed`). So its listings are lawful
(`Memory.WellFormed.lawful_list`), and they stay so throughout every run on it
(`Job.Run.lawful_listed`).
-/

namespace FileRoutes

/-! ### Names on a path -/

/-- The parts of a split text do not hold the separator. -/
private theorem not_mem_of_mem_splitOn {c : Char} {chars part : List Char}
    (h : part ∈ chars.splitOn c) : c ∉ part := by
  induction chars generalizing part with
  | nil =>
    obtain rfl : part = [] := by simpa using h
    simp
  | cons x rest ih =>
    rw [List.splitOn_cons_eq_if_modifyHead] at h
    split at h
    · rcases List.mem_cons.1 h with rfl | h
      · simp
      · exact ih h
    · next hx =>
      cases hparts : rest.splitOn c with
      | nil => simp [hparts] at h
      | cons first others =>
        rw [hparts] at h ih
        rcases List.mem_cons.1 h with rfl | h
        · have hne : c ≠ x := by
            rintro rfl
            simp at hx
          simpa [hne] using ih List.mem_cons_self
        · exact ih (List.mem_cons_of_mem _ h)

/-- The names on a path are names of entries. -/
theorem isName_of_mem_namesOf {text name : String} (h : name ∈ Path.namesOf text) :
    IsName name := by
  refine ⟨Path.ne_empty_of_mem_namesOf h, ?_⟩
  obtain ⟨chars, hchars, rfl⟩ := List.mem_map.1 h
  simpa using not_mem_of_mem_splitOn (List.mem_filter.1 hchars).1

/-- What a relative path denotes lies below its base. -/
theorem Path.location_join {other : String} (base : Path) (h : Path.isAbsolute ⟨other⟩ = false) :
    (base.join other).location =
      ⟨base.location.absolute, base.location.names ++ (Path.namesOf other).filter (· ≠ ".")⟩ := by
  have habsolute : (base.join other).isAbsolute = base.isAbsolute := by
    by_cases hbase : base.text = ""
    · obtain ⟨text⟩ := base
      obtain rfl : text = "" := hbase
      rw [Path.join_empty_left, h]
      rfl
    · exact Path.isAbsolute_join hbase h
  simp [Path.location, Path.names_join base h, habsolute]

namespace Location

/-- All names that lead there are names of entries, and none is a dot. -/
def Lawful (l : Location) : Prop :=
  ∀ name ∈ l.names, IsName name ∧ name ≠ "."

/-- What a path denotes has lawful names. -/
theorem lawful_location (p : Path) : p.location.Lawful := fun _ h =>
  ⟨isName_of_mem_namesOf (List.mem_filter.1 h).1, (Path.ne_of_mem_location_names h).2⟩

/-- The locations that hold a lawful one are lawful. -/
theorem Lawful.of_mem_withAncestors {l k : Location} (h : l.Lawful) (hk : k ∈ l.withAncestors) :
    k.Lawful := by
  obtain ⟨-, -, n, -, hnames⟩ := mem_withAncestors_iff.1 hk
  exact fun name hname => h name (List.mem_of_mem_take (hnames ▸ hname))

/-- What holds a location has one name less. -/
theorem eq_child_of_parent? {l parent : Location} (h : l.parent? = some parent) :
    ∃ name, l = parent.child name := by
  unfold parent? at h
  split at h
  · simp at h
  · next hne =>
    obtain rfl := Option.some.inj h
    have hnames : l.names ≠ [] := by simpa using hne
    exact ⟨l.names.getLast hnames, by rw [child, List.dropLast_append_getLast hnames]⟩

/-- What holds one of the locations that hold `l` is one of them, unless it is empty. -/
theorem parent_mem_withAncestors {l k parent : Location} (hk : k ∈ l.withAncestors)
    (h : k.parent? = some parent) : parent.isEmpty = true ∨ parent ∈ l.withAncestors := by
  obtain ⟨name, rfl⟩ := eq_child_of_parent? h
  obtain ⟨-, habsolute, n, hn, hnames⟩ := mem_withAncestors_iff.1 hk
  cases hempty : parent.isEmpty with
  | true => exact .inl rfl
  | false =>
    have hlength := congrArg List.length hnames
    have htake := congrArg (List.take parent.names.length) hnames
    simp only [child, List.length_append, List.length_singleton, List.length_take,
      Nat.min_eq_left hn] at hlength
    simp only [child, List.take_left, List.take_take] at htake
    rw [Nat.min_eq_left (by omega)] at htake
    exact .inr (mem_withAncestors_iff.2
      ⟨hempty, habsolute, parent.names.length, by omega, htake⟩)

/-- A location that is not empty is one of those that hold it. -/
theorem self_mem_withAncestors {l : Location} (h : l.isEmpty = false) : l ∈ l.withAncestors :=
  mem_withAncestors_iff.2 ⟨h, rfl, l.names.length, le_rfl, by simp⟩

/-- Where `names` lead from a location. -/
def descend (l : Location) (names : List String) : Location :=
  ⟨l.absolute, l.names ++ names⟩

@[simp] theorem descend_nil (l : Location) : l.descend [] = l := by
  simp [descend]

@[simp] theorem child_descend (l : Location) (names : List String) (name : String) :
    (l.descend names).child name = l.descend (names ++ [name]) := by
  simp [descend, child]

/-- One more name leads one level further down. -/
theorem length_names_descend_concat (l : Location) (names : List String) (name : String) :
    (l.descend (names ++ [name])).names.length = (l.descend names).names.length + 1 := by
  simp only [descend, List.length_append, List.length_singleton, Nat.add_assoc]

theorem eq_nil_of_isEmpty_descend {l : Location} {names : List String}
    (h : (l.descend names).isEmpty = true) : names = [] := by
  simp only [isEmpty, descend, Bool.and_eq_true, List.isEmpty_iff, List.append_eq_nil_iff] at h
  exact h.2.2

/-- Where the path of a directory below another one leads. -/
theorem location_join_pathBelow (root : Path) {directory : String} {names : List String}
    (hdirectory : Path.isAbsolute ⟨directory⟩ = false)
    (h : ∀ name ∈ names, IsName name ∧ name ≠ ".") :
    (root.join (pathBelow directory names)).location =
      (root.join directory).location.descend names := by
  have hnames : ∀ name ∈ names, IsName name := fun name hname => (h name hname).1
  have hfilter : names.filter (· ≠ ".") = names :=
    List.filter_eq_self.2 fun name hname => by simpa using (h name hname).2
  rw [Path.location_join root (isAbsolute_pathBelow hdirectory hnames),
    Path.location_join root hdirectory, namesOf_pathBelow hnames, List.filter_append, hfilter]
  simp [descend]

/-- What holds a location comes before it. -/
theorem names_prefix_of_mem_withAncestors {l k : Location} (h : k ∈ l.withAncestors) :
    k.absolute = l.absolute ∧ k.names <+: l.names := by
  obtain ⟨-, habsolute, n, -, hnames⟩ := mem_withAncestors_iff.1 h
  exact ⟨habsolute, hnames ▸ List.take_prefix n l.names⟩

end Location

/-- The location of the routes directory. -/
def Options.routesLocation (o : Options) : Location :=
  (o.root.join (startDirectory o.routes)).location

/-- Where the path of a directory below the routes directory leads. -/
theorem Options.location_join_pathBelow (o : Options) {names : List String}
    (h : ∀ name ∈ names, IsName name ∧ name ≠ ".") :
    (o.root.join (pathBelow (startDirectory o.routes) names)).location =
      o.routesLocation.descend names :=
  Location.location_join_pathBelow o.root (isAbsolute_startDirectory o.routes) h

namespace Memory

/-! ### Well-formed memories -/

/-- The locations of the files. -/
def fileLocations (m : Memory) : List Location :=
  m.files.map Prod.fst

/-- The location is that of a directory or a file. -/
def Stores (m : Memory) (l : Location) : Prop :=
  l ∈ m.dirs ∨ l ∈ m.fileLocations

theorem isDirectory_iff {m : Memory} {l : Location} : m.isDirectory l = true ↔ l ∈ m.dirs := by
  simp [isDirectory]

theorem isFile_iff {m : Memory} {l : Location} : m.isFile l = true ↔ l ∈ m.fileLocations := by
  simp [isFile, fileLocations]

theorem contains_iff {m : Memory} {p : Path} :
    m.contains p = true ↔ m.Stores p.location := by
  rw [contains, Bool.or_eq_true, isDirectory_iff, isFile_iff, Stores]

/-- Nothing is stored twice, names are names of entries, and what is stored lies in a stored
directory or at the top. -/
structure WellFormed (m : Memory) : Prop where
  nodup_dirs : m.dirs.Nodup
  nodup_files : m.fileLocations.Nodup
  isEmpty_of_mem_dirs : ∀ l ∈ m.dirs, l.isEmpty = false
  lawful : ∀ l, m.Stores l → l.Lawful
  parent : ∀ l, m.Stores l → ∀ parent, l.parent? = some parent →
    parent.isEmpty = true ∨ parent ∈ m.dirs

/-- Built up from the empty memory by putting things in and by answering calls. -/
inductive Reachable : Memory → Prop
  | empty : Reachable {}
  | insertFile {m : Memory} (h : Reachable m) (path : Path) (contents : String) :
    Reachable (m.insertFile path contents)
  | insertDirectory {m : Memory} (h : Reachable m) (path : Path) :
    Reachable (m.insertDirectory path)
  | call {m : Memory} (h : Reachable m) (c : Call) : Reachable (storage.answer c m).2

/-- The directories after one is inserted: the old ones, then those that were missing. -/
theorem dirs_insertDirectoryAt (m : Memory) (l : Location) :
    ∃ made, (m.insertDirectoryAt l).dirs = m.dirs ++ made ∧ made.Nodup ∧
      ∀ k, k ∈ made ↔ k ∈ l.withAncestors ∧ k ∉ m.dirs := by
  unfold insertDirectoryAt
  induction l.withAncestors generalizing m with
  | nil => exact ⟨[], by simp⟩
  | cons a rest ih =>
    obtain ⟨made, hdirs, hnodup, hmade⟩ := ih (m.addDirectory a)
    rw [List.foldl_cons, hdirs]
    unfold addDirectory at hmade ⊢
    split at hmade
    · next ha =>
      have hmem := isDirectory_iff.1 ha
      refine ⟨made, by simp [ha], hnodup, fun k => ?_⟩
      rw [hmade, List.mem_cons]
      grind
    · next ha =>
      have hmem := mt isDirectory_iff.2 ha
      refine ⟨a :: made, by simp [ha], ?_, fun k => ?_⟩
      · simpa [hmade] using hnodup
      · rw [List.mem_cons, hmade, List.mem_cons]
        grind

/-- Setting the contents of a file keeps the locations, and adds its own if it is new. -/
theorem map_fst_setContents (l : Location) (contents : String)
    (files : List (Location × String)) :
    (setContents l contents files).map Prod.fst =
      if l ∈ files.map Prod.fst then files.map Prod.fst else files.map Prod.fst ++ [l] := by
  induction files with
  | nil => simp [setContents]
  | cons file rest ih =>
    by_cases h : file.1 = l
    · simp [setContents, h]
    · simp only [setContents, if_neg h, List.map_cons, ih, List.mem_cons, Ne.symm h, false_or]
      split <;> rfl

/-- Setting the contents of a file stores it and nothing else. -/
theorem mem_map_fst_setContents_iff {l k : Location} {contents : String}
    {files : List (Location × String)} :
    k ∈ (setContents l contents files).map Prod.fst ↔ k = l ∨ k ∈ files.map Prod.fst := by
  rw [map_fst_setContents]
  split
  · next h =>
    constructor
    · exact Or.inr
    · rintro (rfl | hk)
      · exact h
      · exact hk
  · simp [or_comm]

variable {m : Memory}

/-- Making a directory keeps a memory well formed. -/
theorem WellFormed.insertDirectoryAt (h : m.WellFormed) {l : Location} (hl : l.Lawful) :
    (m.insertDirectoryAt l).WellFormed := by
  obtain ⟨made, hdirs, hnodup, hmade⟩ := m.dirs_insertDirectoryAt l
  have hfiles : (m.insertDirectoryAt l).fileLocations = m.fileLocations := by
    simp [fileLocations]
  have hmem : ∀ k, k ∈ (m.insertDirectoryAt l).dirs ↔ k ∈ l.withAncestors ∨ k ∈ m.dirs :=
    fun k => by rw [← isDirectory_iff, ← isDirectory_iff, isDirectory_insertDirectoryAt_iff]
  have hstores : ∀ k, (m.insertDirectoryAt l).Stores k → k ∈ l.withAncestors ∨ m.Stores k := by
    rintro k (hk | hk)
    · exact ((hmem k).1 hk).imp id Or.inl
    · exact .inr (.inr (hfiles ▸ hk))
  -- what is new comes with everything that holds it
  refine ⟨?_, hfiles ▸ h.nodup_files, fun k hk => ?_, fun k hk => ?_, fun k hk parent hp => ?_⟩
  · rw [hdirs, List.nodup_append]
    exact ⟨h.nodup_dirs, hnodup, fun a ha b hb hab => ((hmade b).1 hb).2 (hab ▸ ha)⟩
  · rcases (hmem k).1 hk with hk | hk
    · exact (Location.mem_withAncestors_iff.1 hk).1
    · exact h.isEmpty_of_mem_dirs k hk
  · rcases hstores k hk with hk | hk
    · exact hl.of_mem_withAncestors hk
    · exact h.lawful k hk
  · rw [hmem]
    rcases hstores k hk with hk | hk
    · exact (Location.parent_mem_withAncestors hk hp).imp id Or.inl
    · exact (h.parent k hk parent hp).imp id Or.inr

/-- Storing a file in a directory that is there, or at the top, keeps a memory well formed. -/
theorem WellFormed.of_setContents (h : m.WellFormed) {m' : Memory} {l : Location}
    {contents : String} (hdirs : m'.dirs = m.dirs)
    (hfiles : m'.files = setContents l contents m.files) (hl : l.Lawful)
    (hparent : ∀ parent, l.parent? = some parent → parent.isEmpty = true ∨ parent ∈ m.dirs) :
    m'.WellFormed := by
  have hstores : ∀ k, m'.Stores k → k = l ∨ m.Stores k := by
    rintro k (hk | hk)
    · exact .inr (.inl (hdirs ▸ hk))
    · rw [fileLocations, hfiles] at hk
      exact (mem_map_fst_setContents_iff.1 hk).imp id Or.inr
  refine ⟨hdirs ▸ h.nodup_dirs, ?_, hdirs ▸ h.isEmpty_of_mem_dirs, fun k hk => ?_,
    fun k hk parent hp => ?_⟩
  · have hnodup := h.nodup_files
    rw [fileLocations] at hnodup ⊢
    rw [hfiles, map_fst_setContents]
    split
    · exact hnodup
    · next hnew => exact List.concat_eq_append ▸ hnodup.concat hnew
  · rcases hstores k hk with rfl | hk
    · exact hl
    · exact h.lawful k hk
  · rw [hdirs]
    rcases hstores k hk with rfl | hk
    · exact hparent parent hp
    · exact h.parent k hk parent hp

/-- What holds a location is stored once the location it holds was given its directory. -/
private theorem parent_insertDirectoryAt {l parent : Location} (h : l.parent? = some parent) :
    ∀ p, l.parent? = some p →
      p.isEmpty = true ∨ p ∈ (m.insertDirectoryAt parent).dirs := by
  intro p hp
  obtain rfl : parent = p := Option.some.inj (h.symm.trans hp)
  cases hempty : parent.isEmpty with
  | true => exact .inl rfl
  | false =>
    rw [← isDirectory_iff, isDirectory_insertDirectoryAt_iff]
    exact .inr (.inl (Location.self_mem_withAncestors hempty))

/-- A write succeeds where a directory takes the file. -/
theorem write_eq_ok_iff {path : Path} {contents : String} {written : Memory} :
    m.write path contents = .ok written ↔
      (∃ parent, path.location.parent? = some parent ∧ m.takesFiles parent = true) ∧
        written = { m with
          files := setContents path.location contents m.files, writes := m.writes + 1 } := by
  unfold write
  cases hparent : path.location.parent? with
  | none => simp
  | some parent =>
    simp only [Option.some.injEq, exists_eq_left']
    split
    · next h => simp [h, eq_comm]
    · next h => simp [h]

/-- Answering a call keeps a memory well formed. -/
theorem WellFormed.answer (h : m.WellFormed) (c : Call) : (storage.answer c m).2.WellFormed := by
  cases c with
  | list path => exact h
  | probe path => exact h
  | makeDirectory path => exact h.insertDirectoryAt (Location.lawful_location path)
  | write path contents =>
    cases hwrite : m.write path contents with
    | error f =>
      have hsame : (storage.answer (.write path contents) m).2 = m := by
        simp [Storage.answer, storage, StateT.run, hwrite]
      rwa [hsame]
    | ok written =>
      have hwritten : (storage.answer (.write path contents) m).2 = written := by
        simp [Storage.answer, storage, StateT.run, hwrite]
      obtain ⟨⟨parent, hparent, htakes⟩, rfl⟩ := write_eq_ok_iff.1 hwrite
      rw [hwritten]
      refine h.of_setContents rfl rfl (Location.lawful_location path) fun p hp => ?_
      obtain rfl : parent = p := Option.some.inj (hparent.symm.trans hp)
      simpa [takesFiles, isDirectory_iff] using htakes

/-- **A memory that was built up call by call is well formed.** -/
theorem Reachable.wellFormed (h : m.Reachable) : m.WellFormed := by
  induction h with
  | empty => exact ⟨List.nodup_nil, List.nodup_nil, nofun, fun l hl => by
      simp [Stores, fileLocations] at hl, fun l hl => by simp [Stores, fileLocations] at hl⟩
  | insertFile _ path contents ih =>
    have hlawful := Location.lawful_location path
    unfold Memory.insertFile insertFileAt
    cases hparent : path.location.parent? with
    | none => exact ih.of_setContents rfl rfl hlawful fun p hp => by simp [hparent] at hp
    | some parent =>
      obtain ⟨name, hname⟩ := Location.eq_child_of_parent? hparent
      have hdirectory : parent.Lawful := fun n hn => hlawful n (by simp [hname, Location.child, hn])
      exact (ih.insertDirectoryAt hdirectory).of_setContents rfl rfl hlawful
        (parent_insertDirectoryAt hparent)
  | insertDirectory _ path ih => exact ih.insertDirectoryAt (Location.lawful_location path)
  | call _ c ih => exact ih.answer c

/-- The tree of some files was built up by putting them in. -/
theorem reachable_ofFiles (files : List (Path × String)) : (ofFiles files).Reachable := by
  have key : ∀ {m : Memory}, m.Reachable →
      (files.foldl (fun m file => m.insertFile file.1 file.2) m).Reachable := by
    induction files with
    | nil => exact fun hm => hm
    | cons file rest ih => exact fun hm => ih (hm.insertFile file.1 file.2)
  exact key .empty

/-- The directory that holds what is stored below another one is stored as well, or is that one. -/
theorem WellFormed.eq_nil_or_descend_mem_dirs (h : m.WellFormed) {l : Location}
    {names : List String} {name : String} (hstored : m.Stores ((l.descend names).child name)) :
    names = [] ∨ l.descend names ∈ m.dirs := by
  refine (h.parent _ hstored _ (Location.parent?_child _ _)).imp ?_ id
  exact Location.eq_nil_of_isEmpty_descend

/-! ### Listings -/

/-- A location is an entry of a directory if it is a child of it, except under the name `..`. -/
theorem entryName?_eq_some_iff {parent l : Location} {name : String} :
    entryName? parent l = some name ↔ l = parent.child name ∧ name ≠ ".." := by
  unfold entryName?
  constructor
  · intro h
    split at h
    · next hparent =>
      obtain ⟨other, rfl⟩ := Location.eq_child_of_parent? hparent
      by_cases hother : other = ".."
      · simp [hother, Location.name?, Location.child] at h
      · rw [Location.name?_child parent hother] at h
        obtain rfl := Option.some.inj h
        exact ⟨rfl, hother⟩
    · simp at h
  · rintro ⟨rfl, hname⟩
    simp [Location.name?_child parent hname]

/-- What a directory lists: the directories and files stored directly in it. -/
theorem mem_entriesOf_iff {l : Location} {e : Listed} :
    e ∈ m.entriesOf l ↔ e.name ≠ ".." ∧
      (if e.isDirectory then l.child e.name ∈ m.dirs else l.child e.name ∈ m.fileLocations) := by
  obtain ⟨name, isDirectory⟩ := e
  unfold entriesOf fileLocations
  cases isDirectory <;>
    simp [entryName?_eq_some_iff, and_comm]

/-- What the directory at `path` lists, if it is stored. -/
theorem list_eq_ok_iff {path : Path} {listing : List Listed} :
    m.list path = .ok listing ↔ path.location ∈ m.dirs ∧
      listing = stableSort inNameOrder (m.entriesOf path.location) := by
  unfold list
  split
  · next h => simp [isDirectory_iff.1 h, eq_comm]
  · next h => simp [mt isDirectory_iff.2 h]

/-- The entries that a directory lists. -/
theorem mem_list_iff {path : Path} {listing : List Listed} (h : m.list path = .ok listing)
    {e : Listed} :
    e ∈ listing ↔ e.name ≠ ".." ∧ (if e.isDirectory then path.location.child e.name ∈ m.dirs
      else path.location.child e.name ∈ m.fileLocations) := by
  obtain ⟨-, rfl⟩ := list_eq_ok_iff.1 h
  rw [(stableSort_perm _ _).mem_iff, mem_entriesOf_iff]

/-- The entries of a directory have lawful names, if all that is stored has. -/
theorem isName_of_list (h : ∀ l, m.Stores l → l.Lawful) {path : Path} {listing : List Listed}
    (hlist : m.list path = .ok listing) : ∀ e ∈ listing, IsName e.name ∧ e.name ≠ "." := by
  intro e he
  obtain ⟨-, hstored⟩ := (mem_list_iff hlist).1 he
  have hstores : m.Stores (path.location.child e.name) := by
    split at hstored
    · exact .inl hstored
    · exact .inr hstored
  exact h _ hstores e.name (by simp [Location.child])

/-- The entries of a stored directory have lawful names, and each occurs once. -/
theorem WellFormed.lawful_list (h : m.WellFormed) {path : Path} {listing : List Listed}
    (hlist : m.list path = .ok listing) : LawfulListing listing := by
  have hnames := fun e he => (isName_of_list h.lawful hlist e he).1
  obtain ⟨-, rfl⟩ := list_eq_ok_iff.1 hlist
  refine ⟨(stableSort_perm _ _).nodup_iff.2 ?_, hnames⟩
  have hinj : ∀ a b name, name ∈ entryName? path.location a →
      name ∈ entryName? path.location b → a = b := fun a b name ha hb =>
    (entryName?_eq_some_iff.1 ha).1.trans (entryName?_eq_some_iff.1 hb).1.symm
  -- an entry is told by its name among directories and among files, and the two are told apart
  have hdirs := h.nodup_dirs.filterMap hinj
  have hfiles := h.nodup_files.filterMap hinj
  refine List.nodup_append.2 ⟨hdirs.map fun _ _ heq => (Listed.mk.inj heq).1,
    hfiles.map fun _ _ heq => (Listed.mk.inj heq).1, ?_⟩
  rintro e hdirectory _ hfile rfl
  obtain ⟨name, -, rfl⟩ := List.mem_map.1 hdirectory
  obtain ⟨other, -, heq⟩ := List.mem_map.1 hfile
  cases heq

/-! ### An example -/

/-- A page for each user, with a layout of its own, inside the layout of all routes. -/
def users : Memory :=
  .ofFiles [(⟨"app/routes/layout.tsx"⟩, ""), (⟨"app/routes/users/[id]/layout.tsx"⟩, ""),
    (⟨"app/routes/users/[id]/page.tsx"⟩, ""), (⟨"app/routes/users/not-found.tsx"⟩, "")]

/-- The route tree of these files. -/
def usersTree : List Node :=
  [.layout "./routes/layout.tsx" [.route "users" false
    [.layout ".react-router/layouts/users.layout.tsx"
      [.route ":id" true
        [.layout "./routes/users/[id]/layout.tsx" [.indexPage "./routes/users/[id]/page.tsx"]],
      .notFound "./routes/users/not-found.tsx"]]]]

/-- Some run builds the route tree of these files. -/
theorem exists_run_users : ∃ events job m',
    Job.Run storage (FileRoutes.buildTree {} 4) users events job m' ∧
      job.result? = some (.ok usersTree) := by
  obtain ⟨events, job, hrun, hresult⟩ :=
    Job.exists_run_sequential storage (FileRoutes.buildTree {} 4) users
  have hok : (((FileRoutes.buildTree {} 4).run storage).run users).1 = .ok usersTree := by
    decide +kernel
  exact ⟨events, job, _, hrun, hresult.trans (congrArg some hok)⟩

end Memory

/-- A run on a memory that was built up call by call leads to another one. -/
theorem Job.Run.reachable {α : Type} {m m' : Memory} {job job' : Job α} {events : List Event}
    (h : Job.Run Memory.storage job m events job' m') (hm : m.Reachable) : m'.Reachable := by
  have hstep : ∀ {job job' : Job α} {m m' : Memory} {events : List Event},
      Step Memory.storage job m events job' m' → m.Reachable → m'.Reachable := by
    intro job job' m m' events hstep hm
    induction hstep with
    | call c next m => exact hm.call c
    | child _ ih => exact ih hm
    | join => exact hm
  induction h with
  | refl => exact hm
  | step h _ ih => exact ih (hstep h hm)

/-- **Every listing of a run is lawful**, on a memory that was built up call by call. -/
theorem Job.Run.lawful_listed {α : Type} {m m' : Memory} {job job' : Job α} {events : List Event}
    (h : Job.Run Memory.storage job m events job' m') (hm : m.Reachable) {path : Path}
    {listing : List Listed} (hlisted : Event.listed path listing ∈ events) :
    LawfulListing listing := by
  obtain ⟨before, job₁, t, hrun, hreply⟩ := h.exists_run_of_mem hlisted
  have hlist : t.list path = .ok listing := hreply.symm
  exact (hrun.reachable hm).wellFormed.lawful_list hlist

end FileRoutes
