import FileRoutes.Proofs.Placeholders

/-!
# Live files

A file of a memory is **live** if it lies below the routes directory, means something to its
directory by its name, and is not passed over, and neither is any directory on the way to it. While
routes are scanned the memory grows, even in directories that are still to be listed, but what
appears there is never live.

Main results: a build returns the nodes of a folder that was seen in the memory that it starts from
(`Job.Run.exists_folder_seenIn`), and the pages and not-found pages of such a folder are those that
are live from the start (`Folder.SeenIn.perm_live`).
-/

namespace FileRoutes

/-! ### The live files of a memory -/

/-- The names that lead to a location from a directory, if it is there or below. -/
def Location.namesFrom? (directory l : Location) : Option (List String) :=
  if directory.absolute = l.absolute then directory.names.isPrefixOf? l.names else none

theorem Location.namesFrom?_eq_some_iff {directory l : Location} {names : List String} :
    directory.namesFrom? l = some names ↔ l = directory.descend names := by
  unfold namesFrom? descend
  obtain ⟨absolute, all⟩ := l
  split
  · next h => simp [h, List.isPrefixOf?_eq_some_iff_append_eq, eq_comm]
  · next h => simp [Ne.symm h]

/-- The file called `name` in the directory that `folders` lead to has this role and is not passed
over, and neither is a directory on the way to it. No name is `..`. -/
def Options.admits (o : Options) (ignored : IgnoreSet) (role : Convention) (folders : List String)
    (name : String) : Bool :=
  Convention.ofFileName? name = some role &&
    !ignored.ignoresFile (pathBelow (startDirectory o.routes) (folders ++ [name])) &&
    (folders ++ [name]).all (· ≠ "..") &&
    folders.inits.all fun above =>
      above.isEmpty || !ignored.ignoresDirectory (pathBelow (startDirectory o.routes) above)

theorem Options.admits_iff {o : Options} {ignored : IgnoreSet} {role : Convention}
    {folders : List String} {name : String} :
    o.admits ignored role folders name = true ↔
      Convention.ofFileName? name = some role ∧
      ignored.ignoresFile (pathBelow (startDirectory o.routes) (folders ++ [name])) = false ∧
      (∀ n ∈ folders ++ [name], n ≠ "..") ∧
      ∀ above, above <+: folders → above ≠ [] →
        ignored.ignoresDirectory (pathBelow (startDirectory o.routes) above) = false := by
  simp only [admits, Bool.and_eq_true, decide_eq_true_eq, Bool.not_eq_true', List.all_eq_true,
    List.mem_inits, Bool.or_eq_true, List.isEmpty_iff, and_assoc, or_iff_not_imp_left, ne_eq]

namespace Memory

/-- The live files of a memory with this role, each by the names that lead to its directory from
the routes directory and by its own name. -/
def live (m : Memory) (o : Options) (ignored : IgnoreSet) (role : Convention) :
    List (List String × String) :=
  m.fileLocations.filterMap fun l => do
    let names ← o.routesLocation.namesFrom? l
    let name ← names.getLast?
    if o.admits ignored role names.dropLast name then some (names.dropLast, name) else none

variable {m : Memory} {o : Options} {ignored : IgnoreSet} {role : Convention}

private theorem live?_eq_some_iff {l : Location} {folders : List String} {name : String} :
    (do
      let names ← o.routesLocation.namesFrom? l
      let name ← names.getLast?
      if o.admits ignored role names.dropLast name then some (names.dropLast, name) else none) =
        some (folders, name) ↔
      l = o.routesLocation.descend (folders ++ [name]) ∧
        o.admits ignored role folders name = true := by
  simp only [Option.bind_eq_bind, Option.bind_eq_some_iff, Location.namesFrom?_eq_some_iff,
    Option.ite_none_right_eq_some, Option.some.injEq, Prod.mk.injEq]
  constructor
  · rintro ⟨names, rfl, other, hother, hadmits, rfl, rfl⟩
    rw [List.dropLast_append_getLast? _ hother]
    exact ⟨rfl, hadmits⟩
  · rintro ⟨rfl, hadmits⟩
    exact ⟨_, rfl, name, by simp, by simpa using hadmits, by simp, rfl⟩

/-- A live file is a file that is stored below the routes directory and admitted. -/
theorem mem_live_iff {folders : List String} {name : String} :
    (folders, name) ∈ m.live o ignored role ↔
      o.routesLocation.descend (folders ++ [name]) ∈ m.fileLocations ∧
        o.admits ignored role folders name = true := by
  simp only [live, List.mem_filterMap, live?_eq_some_iff]
  constructor
  · rintro ⟨l, hl, rfl, hadmits⟩
    exact ⟨hl, hadmits⟩
  · rintro ⟨hl, hadmits⟩
    exact ⟨_, hl, rfl, hadmits⟩

/-- No live file occurs twice. -/
theorem WellFormed.nodup_live (hm : m.WellFormed) : (m.live o ignored role).Nodup := by
  refine hm.nodup_files.filterMap fun l k file hl hk => ?_
  obtain ⟨folders, name⟩ := file
  exact (live?_eq_some_iff.1 hl).1.trans (live?_eq_some_iff.1 hk).1.symm

/-! ### What a growing memory lists -/

variable {faults : Faults} {cache : LayoutCache} {allowed : String → Prop} {s t : Memory}

/-- The files with a meaning that a directory lists are those that were there at first. -/
theorem Grows.file_mem_list_iff (h : Grows faults cache allowed s t) {p : Path}
    {listing : List Listed} (hlist : t.list p = .ok listing) {name : String}
    (hrole : Convention.ofFileName? name = some role) :
    ⟨name, false⟩ ∈ listing ↔ name ≠ ".." ∧ p.location.child name ∈ s.fileLocations := by
  rw [mem_list_iff hlist, if_neg Bool.false_ne_true]
  refine and_congr_right fun _ => ⟨fun hfile => ?_, h.mem_fileLocations_of_mem⟩
  refine (h.mem_fileLocations hfile).resolve_right ?_
  -- what was written meanwhile are placeholders, and their names mean nothing
  rintro ⟨d, hchild, -⟩
  rw [cache.location_filePath] at hchild
  obtain rfl : name = LayoutCache.fileName d := by
    simpa [Location.child] using congrArg (fun l => l.names.getLast?) hchild
  simp [ofFileName?_placeholder] at hrole

/-- A directory that was there at first is listed. -/
theorem Grows.directory_mem_list (h : Grows faults cache allowed s t) {p : Path}
    {listing : List Listed} (hlist : t.list p = .ok listing) {name : String} (hname : name ≠ "..")
    (hstored : p.location.child name ∈ s.dirs) : ⟨name, true⟩ ∈ listing := by
  rw [mem_list_iff hlist, if_pos rfl]
  exact ⟨hname, h.mem_dirs_of_mem hstored⟩

end Memory

/-! ### What a scan goes into -/

namespace Folder

variable {ignored : IgnoreSet} {path : String} {F : Folder} {folders : List String}
  {listing : List Listed}

/-- No directory on the way to one that was seen is passed over. -/
theorem Followed.ignoresDirectory_eq_false (h : F.Followed ignored path)
    (hd : (folders, listing) ∈ F.folders) {above : List String} (hbegins : above <+: folders)
    (hne : above ≠ []) : ignored.ignoresDirectory (pathBelow path above) = false := by
  have hbelow : (folders, listing) ∈ F.foldersBelow := by
    refine (List.mem_cons.1 hd).resolve_left fun hhere => hne ?_
    rw [(Prod.mk.inj hhere).1] at hbegins
    exact List.prefix_nil.1 hbegins
  clear hd
  induction F generalizing path folders above with
  | nil => simp [foldersBelow] at hbelow
  | entry e rest ih => exact ih h.2 hbegins hne hbelow
  | directory name inside rest ihinside ihrest =>
    obtain ⟨hname, hinside, hrest⟩ := h
    rcases List.mem_append.1 hbelow with hmem | hmem
    · obtain ⟨⟨more, listing⟩, hx, heq⟩ := List.mem_map.1 hmem
      obtain ⟨rfl, rfl⟩ := Prod.mk.inj heq
      cases above with
      | nil => exact absurd rfl hne
      | cons first above =>
        obtain ⟨rfl, hmore⟩ := List.cons_prefix_cons.1 hbegins
        rw [pathBelow_cons]
        cases above with
        | nil => exact hname
        | cons second above =>
          have hdeeper : (more, listing) ∈ inside.foldersBelow := by
            refine (List.mem_cons.1 hx).resolve_left fun hhere => ?_
            simp [(Prod.mk.inj hhere).1] at hmore
          exact ihinside hinside hmore (by simp) hdeeper
    · exact ihrest hrest hbegins hne hmem

private theorem Followed.exists_foldersBelow (h : F.Followed ignored path) {name : String}
    (hlisted : ⟨name, true⟩ ∈ F.listing)
    (hname : ignored.ignoresDirectory (entryPath path name) = false) :
    ∃ inside, ([name], inside) ∈ F.foldersBelow := by
  induction F with
  | nil => simp [Folder.listing] at hlisted
  | entry e rest ih =>
    obtain ⟨he, hrest⟩ := h
    rcases List.mem_cons.1 hlisted with rfl | hlisted
    · simp [he rfl] at hname
    · exact ih hrest hlisted
  | directory other inside rest _ ihrest =>
    obtain ⟨-, -, hrest⟩ := h
    rcases List.mem_cons.1 hlisted with heq | hlisted
    · obtain rfl : name = other := (Listed.mk.inj heq).1
      exact ⟨inside.listing, List.mem_append_left _ (by simp)⟩
    · obtain ⟨found, hfound⟩ := ihrest hrest hlisted
      exact ⟨found, List.mem_append_right _ hfound⟩

/-- A directory that is listed in one that was seen and not passed over was seen as well. -/
theorem Followed.exists_inside (h : F.Followed ignored path) (hd : (folders, listing) ∈ F.folders)
    {name : String} (hlisted : ⟨name, true⟩ ∈ listing)
    (hname : ignored.ignoresDirectory (pathBelow path (folders ++ [name])) = false) :
    ∃ inside, (folders ++ [name], inside) ∈ F.folders := by
  rcases List.mem_cons.1 hd with hhere | hbelow
  · obtain ⟨rfl, rfl⟩ := Prod.mk.inj hhere
    obtain ⟨inside, hinside⟩ := h.exists_foldersBelow hlisted hname
    exact ⟨inside, List.mem_cons_of_mem _ hinside⟩
  · clear hd
    suffices ∃ inside, (folders ++ [name], inside) ∈ F.foldersBelow from
      this.imp fun _ hinside => List.mem_cons_of_mem _ hinside
    induction F generalizing path folders with
    | nil => simp [foldersBelow] at hbelow
    | entry e rest ih => exact ih h.2 hname hbelow
    | directory first inside rest ihinside ihrest =>
      obtain ⟨-, hinside, hrest⟩ := h
      rcases List.mem_append.1 hbelow with hmem | hmem
      · obtain ⟨⟨more, listing⟩, hx, heq⟩ := List.mem_map.1 hmem
        obtain ⟨rfl, rfl⟩ := Prod.mk.inj heq
        have hfound : ∃ found, (more ++ [name], found) ∈ inside.foldersBelow := by
          rcases List.mem_cons.1 hx with hhere | hx
          · obtain ⟨rfl, rfl⟩ := Prod.mk.inj hhere
            exact hinside.exists_foldersBelow hlisted hname
          · exact ihinside hinside hname hx
        obtain ⟨found, hfound⟩ := hfound
        exact ⟨found, List.mem_append_left _ (List.mem_map.2
          ⟨(more ++ [name], found), List.mem_cons_of_mem _ hfound, rfl⟩)⟩
      · obtain ⟨found, hfound⟩ := ihrest hrest hname hmem
        exact ⟨found, List.mem_append_right _ hfound⟩

end Folder

/-! ### What a scan sees of a memory -/

namespace Scan

open Job Memory

variable {faults : Faults} {o : Options} {ignored : IgnoreSet}

private theorem ensures_placed (path : String) (layout? : Option String) (nodes : List Node)
    (s : Memory) :
    Ensures (storage.faulty faults) (Grows faults o.cache fun _ => True)
      (wrap (o.scanSetting ignored) path layout? nodes) s fun _ _ => True := by
  unfold wrap
  simp only [Options.scanSetting]
  split
  · exact .done fun _ _ => trivial
  · split
    · refine ensures_source (listsApart_faulty faults) ?_ fun t _ _ => ?_
      · trivial
      · cases placeholder faults o.cache s (routeDirectory (startDirectory o.routes) path) <;>
          exact .done fun _ _ => trivial
    · exact .done fun _ _ => trivial

/-- Whatever a scan is shown, it only lets the memory grow. -/
theorem ensures_grows (depth : Nat) (path : String) (s : Memory) :
    Ensures (storage.faulty faults) (Grows faults o.cache fun _ => True)
      (directory (o.scanSetting ignored) depth path) s fun _ _ => True := by
  induction depth generalizing path s with
  | zero => exact .done fun _ _ => trivial
  | succ depth ih =>
    have hanswer : ∀ t, ((storage.faulty faults).answer
        (.list ((o.scanSetting ignored).root.join path)) t).2 = t := fun t => by rw [answer_list]
    refine .call (fun t _ => ?_) fun t _ => ?_
    · rw [hanswer t]
      exact .refl t
    · rw [hanswer t]
      split
      · exact .done fun _ _ => trivial
      · exact .fork_map _ (fun _ _ _ => True) (fun below _ => ih below t)
          (fun u _ _ _ => ensures_placed _ _ _ u) fun _ _ _ _ _ _ _ _ _ => trivial

end Scan

namespace Folder

variable {o : Options} {ignored : IgnoreSet} {m : Memory} {F : Folder} {folders : List String}
  {role : Convention} {name : String}

/-- Every listing seen is that of a memory which `m` has grown to. -/
def SeenIn (o : Options) (m : Memory) (F : Folder) : Prop :=
  ∀ d ∈ F.folders, ∃ t : Memory, t.WellFormed ∧
    t.list (o.root.join (pathBelow (startDirectory o.routes) d.1)) = .ok d.2 ∧
    Memory.Grows (fun _ _ => none) o.cache (fun _ => True) m t

theorem SeenIn.lawful (h : F.SeenIn o m) : F.Lawful := by
  intro d hd
  obtain ⟨t, ht, hlist, -⟩ := h d hd
  exact ht.lawful_list hlist

theorem SeenIn.names (h : F.SeenIn o m) :
    F.Names fun name => (IsName name ∧ name ≠ ".") ∧ name ≠ ".." := by
  refine names_iff.2 fun d hd e he => ?_
  obtain ⟨t, ht, hlist, -⟩ := h d hd
  exact ⟨Memory.isName_of_list ht.lawful hlist e he, ((Memory.mem_list_iff hlist).1 he).1⟩

/-- A directory of a memory was seen if neither it nor a directory on the way to it is passed
over. -/
theorem SeenIn.exists_mem_folders (h : F.SeenIn o m) (hm : m.WellFormed)
    (hfollowed : F.Followed ignored (startDirectory o.routes)) (hdotdot : ∀ n ∈ folders, n ≠ "..")
    (hstored : folders = [] ∨ o.routesLocation.descend folders ∈ m.dirs)
    (hdirectories : ∀ above, above <+: folders → above ≠ [] →
      ignored.ignoresDirectory (pathBelow (startDirectory o.routes) above) = false) :
    ∃ listing, (folders, listing) ∈ F.folders := by
  induction folders using List.reverseRecOn with
  | nil => exact ⟨F.listing, List.mem_cons_self⟩
  | append_singleton folders name ih =>
    have hdirectory := hstored.resolve_left (by simp)
    have hnames : ∀ n ∈ folders, IsName n ∧ n ≠ "." := fun n hn =>
      hm.lawful _ (.inl hdirectory) n (by simp [Location.descend, hn])
    rw [← Location.child_descend] at hdirectory
    -- the directory that holds it was seen, and lists it
    have hparent := hm.eq_nil_or_descend_mem_dirs (.inl hdirectory)
    obtain ⟨listing, hd⟩ := ih (fun n hn => hdotdot n (List.mem_append_left _ hn)) hparent
      fun above hbegins => hdirectories above (hbegins.trans (List.prefix_append _ _))
    obtain ⟨t, -, hlist, hgrows⟩ := h _ hd
    rw [← o.location_join_pathBelow hnames] at hdirectory
    have hname : name ≠ ".." := hdotdot name (by simp)
    have hlisted := hgrows.directory_mem_list hlist hname hdirectory
    have hentered := hdirectories (folders ++ [name]) List.prefix_rfl (by simp)
    exact hfollowed.exists_inside hd hlisted hentered

/-- What is found live was live from the start. -/
theorem SeenIn.mem_live (h : F.SeenIn o m)
    (hfollowed : F.Followed ignored (startDirectory o.routes))
    (hmem : (folders, role, name) ∈
      F.folders.flatMap (liveIn ignored (startDirectory o.routes))) :
    (folders, name) ∈ m.live o ignored role := by
  obtain ⟨listing, hd, hfiles⟩ := mem_flatMap_liveIn_iff.1 hmem
  obtain ⟨⟨name, isDirectory⟩, he, rfl, hlive⟩ := mem_of_mem_liveFiles hfiles
  obtain ⟨rfl, hfile, hrole⟩ := liveRole?_eq_some_iff.1 hlive
  obtain ⟨t, -, hlist, hgrows⟩ := h _ hd
  obtain ⟨hdotdot, hstored⟩ := (hgrows.file_mem_list_iff hlist hrole).1 he
  have hfolders := h.names.of_mem_folders hd
  rw [o.location_join_pathBelow fun n hn => (hfolders n hn).1, Location.child_descend] at hstored
  refine Memory.mem_live_iff.2 ⟨hstored, Options.admits_iff.2 ⟨hrole, ?_, ?_, ?_⟩⟩
  · rwa [pathBelow_append]
  · rw [List.forall_mem_append]
    exact ⟨fun n hn => (hfolders n hn).2, by simpa using hdotdot⟩
  · exact fun above hbegins hne => hfollowed.ignoresDirectory_eq_false hd hbegins hne

/-- A page or not-found page that is live from the start is found. -/
theorem SeenIn.mem_flatMap_liveIn (h : F.SeenIn o m) (hm : m.WellFormed)
    (hfollowed : F.Followed ignored (startDirectory o.routes)) (hrole : role ≠ .layout)
    (hlive : (folders, name) ∈ m.live o ignored role) :
    (folders, role, name) ∈ F.folders.flatMap (liveIn ignored (startDirectory o.routes)) := by
  obtain ⟨hstored, hadmits⟩ := Memory.mem_live_iff.1 hlive
  obtain ⟨hconvention, hfile, hdotdot, hdirectories⟩ := Options.admits_iff.1 hadmits
  rw [List.forall_mem_append] at hdotdot
  have hnames : ∀ n ∈ folders, IsName n ∧ n ≠ "." := fun n hn =>
    hm.lawful _ (.inr hstored) n (by simp [Location.descend, hn])
  rw [← Location.child_descend] at hstored
  have hparent := hm.eq_nil_or_descend_mem_dirs (.inr hstored)
  obtain ⟨listing, hd⟩ := h.exists_mem_folders hm hfollowed hdotdot.1 hparent hdirectories
  obtain ⟨t, -, hlist, hgrows⟩ := h _ hd
  rw [← o.location_join_pathBelow hnames] at hstored
  have he := (hgrows.file_mem_list_iff hlist hconvention).2 ⟨hdotdot.2 name (by simp), hstored⟩
  refine mem_flatMap_liveIn_iff.2 ⟨listing, hd, (mem_liveFiles_page_iff hrole).2 ⟨_, he, rfl, ?_⟩⟩
  refine liveRole?_eq_some_iff.2 ⟨rfl, ?_, hconvention⟩
  rwa [pathBelow_append] at hfile

/-- The live file with its directory, if it has this role. -/
def ofRole? (role : Convention) (file : List String × Convention × String) :
    Option (List String × String) :=
  if file.2.1 = role then some (file.1, file.2.2) else none

theorem ofRole?_eq_some_iff {file : List String × Convention × String} :
    ofRole? role file = some (folders, name) ↔ file = (folders, role, name) := by
  obtain ⟨others, other, text⟩ := file
  simp only [ofRole?, Option.ite_none_right_eq_some, Option.some.injEq, Prod.mk.injEq]
  tauto

/-- **The pages found are those that are live from the start**, and so are the not-found pages. -/
theorem SeenIn.perm_live (h : F.SeenIn o m) (hm : m.WellFormed)
    (hfollowed : F.Followed ignored (startDirectory o.routes)) (hrole : role ≠ .layout) :
    ((F.folders.flatMap (liveIn ignored (startDirectory o.routes))).filterMap (ofRole? role)).Perm
      (m.live o ignored role) := by
  have hnodup : ((F.folders.flatMap (liveIn ignored (startDirectory o.routes))).filterMap
      (ofRole? role)).Nodup := by
    refine h.lawful.nodup_flatMap_liveIn.filterMap ?_
    rintro a b ⟨folders, name⟩ ha hb
    exact (ofRole?_eq_some_iff.1 ha).trans (ofRole?_eq_some_iff.1 hb).symm
  refine (List.perm_ext_iff_of_nodup hnodup hm.nodup_live).2 ?_
  rintro ⟨folders, name⟩
  simp only [List.mem_filterMap, ofRole?_eq_some_iff, exists_eq_right]
  exact ⟨h.mem_live hfollowed, h.mem_flatMap_liveIn hm hfollowed hrole⟩

end Folder

namespace Job

variable {o : Options} {depth : Nat} {m m' : Memory} {events : List Event}
  {job : Job (List Node)}

/-- A build of the route tree lets the memory grow. -/
theorem Run.grows {faults : Faults}
    (h : Run (Memory.storage.faulty faults) (buildTree o depth) m events job m') :
    Memory.Grows faults o.cache (fun _ => True) m m' := by
  have hensures : Ensures (Memory.storage.faulty faults) (Memory.Grows faults o.cache fun _ => True)
      (buildTree o depth) m fun _ _ => True := by
    unfold buildTree
    cases IgnoreSet.ofTexts o.ignored with
    | ok ignored => exact Scan.ensures_grows depth _ m
    | error f => exact .done fun _ _ => trivial
  exact (hensures.run h).1

/-- What a run lists is listed by the memory that its memory has grown to. -/
theorem Run.exists_list_eq (h : Run Memory.storage (buildTree o depth) m events job m')
    (hm : m.Reachable) {path : Path} {listing : List Listed}
    (hlisted : Event.listed path listing ∈ events) :
    ∃ t : Memory, t.WellFormed ∧ t.list path = .ok listing ∧
      Memory.Grows (fun _ _ => none) o.cache (fun _ => True) m t := by
  obtain ⟨before, job₁, t, hrun, hreply⟩ := h.exists_run_of_mem hlisted
  have hlist : t.list path = .ok listing := hreply.symm
  refine ⟨t, (hrun.reachable hm).wellFormed, hlist, ?_⟩
  rw [← Memory.storage.faulty_none] at hrun
  exact hrun.grows

/-- **A build on a memory finds its live files**: it returns the nodes of a folder that was seen in
this memory. -/
theorem Run.exists_folder_seenIn {tree : List Node}
    (hrun : Run Memory.storage (buildTree o depth) m events job m') (hm : m.Reachable)
    (hresult : job.result? = some (.ok tree)) :
    ∃ (ignored : IgnoreSet) (F : Folder), IgnoreSet.ofTexts o.ignored = .ok ignored ∧
      F.Followed ignored (startDirectory o.routes) ∧ F.SeenIn o m ∧
      tree = F.nodes ignored (o.cache.referenceFor (startDirectory o.routes))
        (startDirectory o.routes) := by
  obtain ⟨ignored, F, hignored, hfollowed, htree, hevents⟩ := hrun.exists_folder hresult
  refine ⟨ignored, F, hignored, hfollowed, fun d hd => ?_, htree⟩
  exact hrun.exists_list_eq hm (Multiset.mem_coe.1 ((hevents _ _).2 ⟨d, hd, rfl, rfl⟩))

end Job

end FileRoutes
