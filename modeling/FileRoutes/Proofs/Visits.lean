import FileRoutes.Proofs.Failure
import FileRoutes.Proofs.OwnOutput

/-!
# Each directory is listed once

The tasks of a scan list directories without a record of those that other tasks have listed. That
none of them is listed twice comes from how the tasks come about: a task lists one directory, and
starts one task for each directory in it that is not passed over. So the calls that a scan has made
so far, finished or not, stand for a set of names to follow, each of them found in a listing
(`Scan.Visits`), and as no listing has a name twice, no two tasks follow the same names.

Outside the layout cache the listings are those of the memory at the start. So a scan makes at most
one listing for each directory that is there, whatever the bound on its depth, and one that succeeds
has listed all that it enters.

Main result: `Job.Run.listed_once`.
-/

namespace FileRoutes

open Memory Job

/-- The location of the directory that was to be listed, whatever the reply. -/
def Event.listedLocation? (e : Event) : Option Location :=
  match e.call with
  | .list path => some path.location
  | _ => none

/-- A call of another sort is about no listing. -/
theorem Event.listedLocation?_eq_none {e : Event} (h : e.call.kind ≠ .list) :
    e.listedLocation? = none := by
  obtain ⟨c, reply⟩ := e
  cases c with
  | list path => exact absurd rfl h
  | _ => rfl

/-- The locations of the directories that were to be listed, one for each call. -/
def Job.listedLocations (events : Multiset Event) : Multiset Location :=
  events.filterMap Event.listedLocation?

private theorem Job.listedLocations_cons_list (path : Path)
    (reply : Except Fault (Call.list path).Reply) (events : Multiset Event) :
    listedLocations (⟨.list path, reply⟩ ::ₘ events) = path.location ::ₘ listedLocations events :=
  Multiset.filterMap_cons_some Event.listedLocation? ⟨.list path, reply⟩ events rfl

private theorem Job.listedLocations_cons_of_ne {e : Event} (h : e.call.kind ≠ .list)
    (events : Multiset Event) : listedLocations (e ::ₘ events) = listedLocations events :=
  Multiset.filterMap_cons_none e events (Event.listedLocation?_eq_none h)

private theorem Job.listedLocations_add (events more : Multiset Event) :
    listedLocations (events + more) = listedLocations events + listedLocations more :=
  Multiset.filterMap_add Event.listedLocation? events more

namespace Scan

variable {root : Path} {start path : String} {ignored : IgnoreSet} {cache : LayoutCache}
  {depth : Nat} {events : Multiset Event}

/-! ### Calls that list nothing -/

section

variable {directory : String} {next : Except Fault String → Job (List Node)}

/-- Writing a placeholder lists nothing. -/
private theorem listedLocations_ensureFile
    (hnext : ∀ r events, Begins (next r) events → listedLocations events = 0)
    (h : Begins (cache.ensureFile directory next) events) : listedLocations events = 0 := by
  rcases begins_call_iff.1 h with rfl | ⟨reply, rest, rfl, hrest⟩
  · rfl
  · rw [listedLocations_cons_of_ne (by simp [Call.kind])]
    rcases reply with f | (_ | _)
    · exact hnext _ _ hrest
    · rcases begins_call_iff.1 hrest with rfl | ⟨written, last, rfl, hlast⟩
      · rfl
      · rw [listedLocations_cons_of_ne (by simp [Call.kind])]
        cases written <;> exact hnext _ _ hlast
    · exact hnext _ _ hrest

/-- Making sure of a placeholder lists nothing. -/
private theorem listedLocations_source
    (hnext : ∀ r events, Begins (next r) events → listedLocations events = 0)
    (h : Begins (cache.source directory next) events) : listedLocations events = 0 := by
  rcases begins_call_iff.1 h with rfl | ⟨reply, rest, rfl, hrest⟩
  · rfl
  · rw [listedLocations_cons_of_ne (by simp [Call.kind])]
    rcases reply with f | (_ | _)
    · exact hnext _ _ hrest
    · rcases begins_call_iff.1 hrest with rfl | ⟨made, last, rfl, hlast⟩
      · rfl
      · rw [listedLocations_cons_of_ne (by simp [Call.kind])]
        cases made with
        | error f => exact hnext _ _ hlast
        | ok _ => exact listedLocations_ensureFile hnext hlast
    · exact listedLocations_ensureFile hnext hrest

/-- Wrapping lists nothing. -/
private theorem listedLocations_wrap {layout? : Option String} {nodes : List Node}
    (h : Begins (wrap ⟨root, start, ignored, cache.source⟩ path layout? nodes) events) :
    listedLocations events = 0 := by
  unfold wrap at h
  split at h
  · rw [begins_done_iff.1 h]
    rfl
  · split at h
    · dsimp only at h
      refine listedLocations_source (fun r events h => ?_) h
      cases r <;>
      · rw [begins_done_iff.1 h]
        rfl
    · rw [begins_done_iff.1 h]
      rfl

end

/-! ### Names that were followed -/

/-- The names of the directories in a listing that are not passed over. -/
def foldersIn (ignored : IgnoreSet) (path : String) (listing : List Listed) : List String :=
  (listing.filter fun e => e.isDirectory && !ignored.ignoresDirectory (entryPath path e.name)).map
    (·.name)

theorem mem_foldersIn_iff {listing : List Listed} {name : String} :
    name ∈ foldersIn ignored path listing ↔
      ⟨name, true⟩ ∈ listing ∧ ignored.ignoresDirectory (entryPath path name) = false := by
  simp only [foldersIn, List.mem_map, List.mem_filter, Bool.and_eq_true, Bool.not_eq_true']
  constructor
  · rintro ⟨⟨name, isDirectory⟩, ⟨he, rfl, hopen⟩, rfl⟩
    exact ⟨he, hopen⟩
  · rintro ⟨he, hopen⟩
    exact ⟨_, ⟨he, rfl, hopen⟩, rfl⟩

/-- No name is that of two directories in a lawful listing. -/
theorem nodup_foldersIn {listing : List Listed} (h : LawfulListing listing) :
    (foldersIn ignored path listing).Nodup := by
  refine (h.nodup.filter _).map_on ?_
  rintro ⟨name, isDirectory⟩ he ⟨other, isDirectory'⟩ he' rfl
  simp only [List.mem_filter, Bool.and_eq_true] at he he'
  rw [he.2.1, he'.2.1]

/-- The directories to scan are those that are not passed over. -/
theorem directoryPaths_findings (listing : List Listed) :
    directoryPaths (listing.filterMap (finding? ignored path)) =
      (foldersIn ignored path listing).map (entryPath path) := by
  induction listing with
  | nil => rfl
  | cons e rest ih =>
    obtain ⟨name, isDirectory⟩ := e
    by_cases hopen : isDirectory = true ∧ ignored.ignoresDirectory (entryPath path name) = false
    · obtain ⟨rfl, hopen⟩ := hopen
      rw [List.filterMap_cons_some (Folder.finding?_directory hopen)]
      refine (congrArg (entryPath path name :: ·) ih).trans ?_
      simp [foldersIn, hopen]
    · have hnot : ∀ other below, finding? ignored path ⟨name, isDirectory⟩ ≠
          some (.directory other below) := by
        intro other below hfinding
        obtain ⟨heq, rfl, hignored⟩ := Folder.finding?_eq_directory_iff.1 hfinding
        obtain ⟨rfl, rfl⟩ := Listed.mk.inj heq
        exact hopen ⟨rfl, hignored⟩
      have hrest : foldersIn ignored path (⟨name, isDirectory⟩ :: rest) =
          foldersIn ignored path rest := by
        rw [foldersIn, List.filter_cons_of_neg (by simpa using hopen), ← foldersIn]
      rw [hrest, ← ih]
      cases hfinding : finding? ignored path ⟨name, isDirectory⟩ with
      | none => rw [List.filterMap_cons_none hfinding]
      | some finding =>
        rw [List.filterMap_cons_some hfinding]
        cases finding with
        | directory other below => exact absurd hfinding (hnot other below)
        | _ => rfl

/-- Of the calls that a scan of the directory at `path` has made, those that list are one for each
of these lists of names, which lead to the directories. Each name was listed in the directory that
the names before it lead to, and is not passed over there. -/
structure Visits (root : Path) (ignored : IgnoreSet) (all : Multiset Event) (path : String)
    (events : Multiset Event) (visited : Multiset (List String)) : Prop where
  locations : listedLocations events =
    visited.map fun names => (root.join (pathBelow path names)).location
  nodup : visited.Nodup
  entered : ∀ names ∈ visited, ∀ holder name, holder ++ [name] <+: names →
    ignored.ignoresDirectory (pathBelow path (holder ++ [name])) = false ∧
      ∃ listing, Event.listed (root.join (pathBelow path holder)) listing ∈ all ∧
        ⟨name, true⟩ ∈ listing

variable {all : Multiset Event}

/-- The scans of directories with different names in one that was listed. -/
private theorem visits_of_family {child : String → Job (List Node)} {folders : List String}
    {family : List (Job (List Node) × Multiset Event)}
    (hjobs : folders.map (fun name => child (entryPath path name)) = family.map Prod.fst)
    (hfamily : ∀ x ∈ family, Begins x.1 x.2) (hsub : (family.map Prod.snd).sum ⊆ all)
    (hnodup : folders.Nodup)
    (hfolders : ∀ name ∈ folders, ignored.ignoresDirectory (entryPath path name) = false ∧
      ∃ listing, Event.listed (root.join path) listing ∈ all ∧ ⟨name, true⟩ ∈ listing)
    (ih : ∀ {path events}, Begins (child path) events → events ⊆ all →
      ∃ visited, Visits root ignored all path events visited) :
    ∃ visited, Visits root ignored all path (family.map Prod.snd).sum visited ∧
      ∀ names ∈ visited, ∃ name ∈ folders, ∃ more, names = name :: more := by
  induction folders generalizing family with
  | nil =>
    obtain rfl : family = [] := by simpa using hjobs.symm
    exact ⟨0, ⟨rfl, Multiset.nodup_zero, by simp⟩, by simp⟩
  | cons name folders ihfolders =>
    obtain ⟨x, others, rfl, hx, hothers⟩ := List.map_eq_cons_iff.1 hjobs.symm
    obtain ⟨hbegins, hrest⟩ := List.forall_mem_cons.1 hfamily
    have hfirst : x.2 ⊆ all := fun e he => hsub (Multiset.mem_add.2 (.inl he))
    have hothersub : (others.map Prod.snd).sum ⊆ all :=
      fun e he => hsub (Multiset.mem_add.2 (.inr he))
    obtain ⟨hname, hnodup⟩ := List.nodup_cons.1 hnodup
    obtain ⟨hfolder, hfolders⟩ := List.forall_mem_cons.1 hfolders
    obtain ⟨inside, hinside⟩ := ih (hx ▸ hbegins) hfirst
    obtain ⟨beside, hbeside, hheads⟩ := ihfolders hothers.symm hrest hothersub hnodup hfolders
    refine ⟨inside.map (name :: ·) + beside, ⟨?_, ?_, ?_⟩, ?_⟩
    · rw [List.map_cons, List.sum_cons, listedLocations_add, hinside.locations,
        hbeside.locations, Multiset.map_add, Multiset.map_map]
      rfl
    · refine Multiset.nodup_add.2 ⟨hinside.nodup.map List.cons_injective, hbeside.nodup, ?_⟩
      refine Multiset.disjoint_left.2 fun {names} hmem hmem' => hname ?_
      obtain ⟨more, -, rfl⟩ := Multiset.mem_map.1 hmem
      obtain ⟨other, hother, rest, heq⟩ := hheads _ hmem'
      rwa [(List.cons.inj heq).1]
    · intro names hmem holder last hbegins
      rcases Multiset.mem_add.1 hmem with hmem | hmem
      · obtain ⟨more, hmore, rfl⟩ := Multiset.mem_map.1 hmem
        cases holder with
        | nil =>
          obtain ⟨rfl, -⟩ := List.cons_prefix_cons.1 hbegins
          exact hfolder
        | cons first holder =>
          obtain ⟨rfl, hmore'⟩ := List.cons_prefix_cons.1 hbegins
          exact hinside.entered more hmore holder last hmore'
      · exact hbeside.entered names hmem holder last hbegins
    · intro names hmem
      rcases Multiset.mem_add.1 hmem with hmem | hmem
      · obtain ⟨more, -, rfl⟩ := Multiset.mem_map.1 hmem
        exact ⟨name, List.mem_cons_self, more, rfl⟩
      · obtain ⟨other, hother, hnames⟩ := hheads names hmem
        exact ⟨other, List.mem_cons_of_mem _ hother, hnames⟩

/-- **A scan follows no names twice**, however far it has come, if no listing has a name twice. -/
theorem exists_visits_of_begins
    (hlawful : ∀ path listing, Event.listed path listing ∈ all → LawfulListing listing)
    (h : Begins (directory ⟨root, start, ignored, cache.source⟩ depth path) events)
    (hsub : events ⊆ all) : ∃ visited, Visits root ignored all path events visited := by
  induction depth generalizing path events with
  | zero =>
    obtain rfl := begins_done_iff.1 h
    exact ⟨0, rfl, Multiset.nodup_zero, by simp⟩
  | succ depth ih =>
    rcases begins_call_iff.1 h with rfl | ⟨reply, rest, rfl, hrest⟩
    · exact ⟨0, rfl, Multiset.nodup_zero, by simp⟩
    · cases reply with
      | error f =>
        obtain rfl := begins_done_iff.1 hrest
        refine ⟨{[]}, rfl, Multiset.nodup_singleton _, ?_⟩
        simp
      | ok listing =>
        have hlisted : Event.listed (root.join path) listing ∈ all :=
          hsub (Multiset.mem_cons_self _ _)
        obtain ⟨family, values, last, hjobs, rfl, hfamily, hwrap⟩ := begins_fork_iff.1 hrest
        have hmade : (family.map Prod.snd).sum ⊆ all := fun e he =>
          hsub (Multiset.mem_cons_of_mem (Multiset.mem_add.2 (.inl he)))
        have hfolders : ∀ name ∈ foldersIn ignored path listing,
            ignored.ignoresDirectory (entryPath path name) = false ∧
              ∃ listing, Event.listed (root.join path) listing ∈ all ∧ ⟨name, true⟩ ∈ listing := by
          intro name hname
          obtain ⟨hmem, hopen⟩ := mem_foldersIn_iff.1 hname
          exact ⟨hopen, listing, hlisted, hmem⟩
        rw [directoryPaths_findings, List.map_map] at hjobs
        obtain ⟨below, hbelow, hheads⟩ := visits_of_family hjobs hfamily hmade
          (nodup_foldersIn (hlawful _ _ hlisted)) hfolders ih
        refine ⟨[] ::ₘ below, ?_, ?_, ?_⟩
        · have hlast : listedLocations last = 0 := listedLocations_wrap hwrap
          rw [listedLocations_cons_list, listedLocations_add, hlast, add_zero, hbelow.locations,
            Multiset.map_cons]
          rfl
        · exact Multiset.nodup_cons.2 ⟨fun hnil => by simpa using hheads [] hnil, hbelow.nodup⟩
        · intro names hmem holder name hbegins
          rcases Multiset.mem_cons.1 hmem with rfl | hmem
          · simp at hbegins
          · exact hbelow.entered names hmem holder name hbegins

end Scan

/-! ### What a build lists -/

variable {o : Options} {ignored : IgnoreSet} {m m' : Memory} {depth : Nat} {events : List Event}
  {job : Job (List Node)}

/-- Different names lead to different places. -/
theorem Location.descend_injective (l : Location) : Function.Injective l.descend :=
  fun _ _ h => List.append_cancel_left (congrArg Location.names h)

namespace Job

/-- What a run has listed so far: the names that lead there are names that a memory can have. -/
private theorem Run.exists_visits (hm : m.Reachable)
    (hignored : IgnoreSet.ofTexts o.ignored = .ok ignored)
    (hrun : Run storage (FileRoutes.buildTree o depth) m events job m') :
    ∃ visited, Scan.Visits o.root ignored events (startDirectory o.routes) events visited ∧
      ∀ names ∈ visited, ∀ name ∈ names, (IsName name ∧ name ≠ ".") ∧ name ≠ ".." := by
  have hbegins := hrun.begins
  unfold FileRoutes.buildTree at hbegins
  rw [hignored] at hbegins
  obtain ⟨visited, hvisits⟩ := Scan.exists_visits_of_begins
    (fun path listing hlisted => hrun.lawful_listed hm (Multiset.mem_coe.1 hlisted)) hbegins
    (Multiset.Subset.refl _)
  refine ⟨visited, hvisits, fun names hnames name hname => ?_⟩
  obtain ⟨holder, more, rfl⟩ := List.append_of_mem hname
  obtain ⟨-, listing, hlisted, hmem⟩ := hvisits.entered _ hnames holder name (by simp)
  obtain ⟨t, ht, hlist, -⟩ := hrun.exists_list_eq hm (Multiset.mem_coe.1 hlisted)
  exact ⟨Memory.isName_of_list ht.lawful hlist _ hmem, ((Memory.mem_list_iff hlist).1 hmem).1⟩

/-- What a run lists is listed by the memory that it starts from, where the layout cache is not in
the routes directory. -/
private theorem Run.list_eq (hm : m.Reachable)
    (hcache : ¬ o.routesLocation.Below o.cache.path.location)
    (hrun : Run storage (FileRoutes.buildTree o depth) m events job m') {names : List String}
    (hnames : ∀ name ∈ names, IsName name ∧ name ≠ ".") {listing : List Listed}
    (hlisted : Event.listed (o.root.join (pathBelow (startDirectory o.routes) names)) listing ∈
      events) :
    m.list (o.root.join (pathBelow (startDirectory o.routes) names)) = .ok listing := by
  obtain ⟨t, -, hlist, hgrows⟩ := hrun.exists_list_eq hm hlisted
  rw [← hgrows.list_eq fun hbelow => hcache ?_]
  · exact hlist
  · rw [o.location_join_pathBelow hnames] at hbelow
    exact hbelow.of_descend

/-- What a run has listed so far. -/
private theorem Run.nodup_listedLocations (hm : m.Reachable)
    (hcache : ¬ o.routesLocation.Below o.cache.path.location)
    (hignored : IgnoreSet.ofTexts o.ignored = .ok ignored)
    (hrun : Run storage (FileRoutes.buildTree o depth) m events job m') :
    (listedLocations events).Nodup ∧ ∀ l ∈ listedLocations events,
      (l = o.routesLocation ∨ l ∈ m.dirs) ∧ o.Enters ignored l := by
  obtain ⟨visited, hvisits, hnames⟩ := hrun.exists_visits hm hignored
  have hlocations : listedLocations events = visited.map o.routesLocation.descend :=
    hvisits.locations.trans (Multiset.map_congr rfl fun names hmem =>
      o.location_join_pathBelow fun name hname => (hnames names hmem name hname).1)
  rw [hlocations]
  refine ⟨hvisits.nodup.map o.routesLocation.descend_injective,
    Multiset.forall_mem_map_iff.2 fun names hmem => ⟨?_, names, rfl, fun name hname =>
      (hnames names hmem name hname).2, fun above hbegins hne => ?_⟩⟩
  · rcases List.eq_nil_or_concat names with rfl | ⟨holder, name, rfl⟩
    · exact .inl (Location.descend_nil _)
    · -- it was found in a listing, and the memory listed the same from the start
      obtain ⟨-, listing, hlisted, hname⟩ :=
        hvisits.entered _ hmem holder name (by rw [List.concat_eq_append])
      have hholder : ∀ n ∈ holder, IsName n ∧ n ≠ "." := fun n hn =>
        (hnames _ hmem n (by simp [hn])).1
      have hlist := hrun.list_eq hm hcache hholder (Multiset.mem_coe.1 hlisted)
      rw [List.concat_eq_append]
      exact .inr (Scan.descend_mem_dirs_of_mem_list hholder hlist hname)
  · obtain ⟨holder, name, rfl⟩ := (List.eq_nil_or_concat above).resolve_left hne
    rw [List.concat_eq_append] at hbegins ⊢
    exact (hvisits.entered names hmem holder name hbegins).1

/-- What was listed with a listing in reply was to be listed. -/
theorem ListedAt.mem_listedLocations {l : Location} (h : ListedAt events l) :
    l ∈ listedLocations events := by
  obtain ⟨path, listing, hlisted, rfl⟩ := h
  exact (Multiset.mem_filterMap _ _).2 ⟨_, Multiset.mem_coe.2 hlisted, rfl⟩

/-- A run that succeeds has listed the routes directory. -/
private theorem Run.mem_dirs_of_ok {tree : List Node} (hm : m.Reachable)
    (hcache : ¬ o.routesLocation.Below o.cache.path.location)
    (hrun : Run storage (FileRoutes.buildTree o depth) m events job m')
    (hresult : job.result? = some (.ok tree)) : o.routesLocation ∈ m.dirs := by
  obtain ⟨ignored, F, -, -, -, hevents⟩ := hrun.exists_folder hresult
  have hlisted := (hevents _ _).2 ⟨_, List.mem_cons_self, rfl, rfl⟩
  have hlist := hrun.list_eq hm hcache (by simp) (Multiset.mem_coe.1 hlisted)
  exact (list_eq_ok_iff.1 hlist).1

/-- **Each directory is listed once, and ignored ones never.** A build, in any order of its calls
and at any moment, has called for the listing of each directory at most once, and only for
directories that it enters: those that names lead to from the routes directory such that neither the
directory nor any other on the way is passed over. Directories around the routes directory are not
tested, nor is this directory itself. All of them are there from the start, the routes directory
perhaps excepted, so there are no more such calls than directories and one. The build comes to a
result, which is that of a scan without a bound on its depth if the bound is large enough, and if it
succeeds, it has listed all directories that it enters. -/
theorem Run.listed_once (hm : m.Reachable)
    (hcache : ¬ o.routesLocation.Below o.cache.path.location)
    (hrun : Run storage (FileRoutes.buildTree o depth) m events job m') :
    ((∃ r, job.result? = some r) ∨ ∃ next, StepsTo storage (job, m') next) ∧
    Acc (fun b a => StepsTo storage a b) (job, m') ∧
    (m.scanDepth o ≤ depth → ∀ r, job.result? = some r →
      r = o.depthFirst (fun _ _ => none) m (m.scanDepth o) ∧
      ∀ path, r ≠ .error (.tooDeep path)) ∧
    (listedLocations events).Nodup ∧
    (∀ l ∈ listedLocations events, l = o.routesLocation ∨ l ∈ m.dirs) ∧
    (listedLocations events).card ≤ m.dirs.length + 1 ∧
    ∀ ignored, IgnoreSet.ofTexts o.ignored = .ok ignored →
      (∀ l ∈ listedLocations events, o.Enters ignored l) ∧
      ((∃ tree, job.result? = some (.ok tree)) →
        ∀ l, l ∈ listedLocations events ↔ l ∈ m.dirs ∧ o.Enters ignored l) := by
  have hlisted : (listedLocations events).Nodup ∧
      ∀ l ∈ listedLocations events, l = o.routesLocation ∨ l ∈ m.dirs := by
    cases hignored : IgnoreSet.ofTexts o.ignored with
    | error f =>
      obtain ⟨-, -, rfl⟩ := hrun.of_ofTexts_eq_error hignored
      exact ⟨Multiset.nodup_zero, by simp [listedLocations]⟩
    | ok ignored =>
      obtain ⟨hnodup, hmem⟩ := hrun.nodup_listedLocations hm hcache hignored
      exact ⟨hnodup, fun l hl => (hmem l hl).1⟩
  have hcard : (listedLocations events).card ≤ m.dirs.length + 1 := by
    have hsub : listedLocations events ⊆ ((o.routesLocation :: m.dirs : List Location) :
        Multiset Location) := fun l hl => by simpa using hlisted.2 l hl
    exact Multiset.card_le_card ((Multiset.le_iff_subset hlisted.1).2 hsub)
  refine ⟨result?_isSome_or_exists_step storage job m', (wellFounded_stepsTo storage).apply _,
    fun hdepth r hr => ⟨?_, ?_⟩, hlisted.1, hlisted.2, hcard, fun ignored hignored => ⟨?_, ?_⟩⟩
  · rw [← storage.faulty_none] at hrun
    obtain ⟨hfirst, hsame, -⟩ := hrun.schedule_independent hm hcache
    rw [(hsame r hr).1, hfirst]
    exact Options.depthFirst_eq_of_le hm.wellFormed _ hdepth
  · rintro path rfl
    have hfails := ((hrun.failsWith hm.wellFormed hdepth).1 _ hr).1 _ rfl
    cases hfails
  · exact fun l hl => ((hrun.nodup_listedLocations hm hcache hignored).2 l hl).2
  · rintro ⟨tree, hresult⟩ l
    obtain ⟨ignored', F, hignored', hfollowed, -, hevents⟩ := hrun.exists_folder hresult
    obtain rfl : ignored' = ignored := Except.ok.inj (hignored'.symm.trans hignored)
    have hseen : F.SeenIn o m := fun d hd =>
      hrun.exists_list_eq hm (Multiset.mem_coe.1 ((hevents _ _).2 ⟨d, hd, rfl, rfl⟩))
    constructor
    · intro hl
      obtain ⟨hdirs, henters⟩ := (hrun.nodup_listedLocations hm hcache hignored).2 l hl
      refine ⟨hdirs.elim (fun heq => heq ▸ hrun.mem_dirs_of_ok hm hcache hresult) id, henters⟩
    · rintro ⟨hdirs, henters⟩
      exact (hseen.listedAt hm.wellFormed hfollowed hevents hdirs henters).mem_listedLocations

end Job

/-! ### An example -/

namespace Memory

/-- A directory of drafts beside one of documents. -/
def drafts : Memory :=
  .ofFiles [(⟨"app/routes/docs/page.tsx"⟩, ""), (⟨"app/routes/drafts/new/page.tsx"⟩, "")]

/-- Drafts are passed over. -/
def draftsOptions : Options where
  root := ⟨"app"⟩
  ignored := ["routes/drafts/**"]

/-- The route tree of the documents. -/
def draftsTree : List Node :=
  [.layout ".react-router/layouts/root.layout.tsx"
    [.route "docs" false
      [.layout ".react-router/layouts/docs.layout.tsx" [.indexPage "./routes/docs/page.tsx"]]]]

end Memory

/-- The documents are listed once, and neither the drafts nor what is in there. -/
theorem Job.Run.listed_once_drafts : ∃ events job m',
    Run storage (FileRoutes.buildTree draftsOptions (drafts.scanDepth draftsOptions)) drafts events
        job m' ∧
      job.result? = some (.ok draftsTree) ∧ (listedLocations events).Nodup ∧
      (∀ names, ⟨false, ["app", "routes", "drafts"] ++ names⟩ ∉ listedLocations events) ∧
      ⟨false, ["app", "routes", "docs"]⟩ ∈ listedLocations events := by
  obtain ⟨events, job, hrun, hresult⟩ := Job.exists_run_sequential storage
    (FileRoutes.buildTree draftsOptions (drafts.scanDepth draftsOptions)) drafts
  have htree : (drafts.buildTree draftsOptions).1 = .ok draftsTree := by decide +kernel
  have hresult : job.result? = some (.ok draftsTree) := hresult.trans (congrArg some htree)
  obtain ⟨-, -, -, hnodup, -, -, hlisted⟩ :=
    Job.Run.listed_once (reachable_ofFiles _) (by decide) hrun
  obtain ⟨ignored, hignored, hset⟩ : ∃ ignored,
      IgnoreSet.ofTexts draftsOptions.ignored = .ok ignored ∧
        ignored.ignoresDirectory "routes/drafts" = true ∧
          ignored.ignoresDirectory "routes/docs" = false :=
    ⟨⟨[⟨"routes/drafts/**", "routes/drafts/".toList.map .literal ++ [.anyDepth]⟩],
      [⟨"routes/drafts", "routes/drafts".toList.map .literal⟩]⟩, by decide +kernel⟩
  obtain ⟨henters, hexactly⟩ := hlisted ignored hignored
  refine ⟨events, job, _, hrun, hresult, hnodup, fun names hmem => ?_, ?_⟩
  · obtain ⟨below, hbelow, -, hopen⟩ := henters _ hmem
    have hroutes : draftsOptions.routesLocation = ⟨false, ["app", "routes"]⟩ := by decide
    obtain rfl : "drafts" :: names = below := by
      simpa [hroutes, Location.descend] using hbelow
    have hpassed : ignored.ignoresDirectory "routes/drafts" = false :=
      hopen ["drafts"] (by simp) (by simp)
    simp [hset.1] at hpassed
  · refine (hexactly ⟨_, hresult⟩ _).2 ⟨by decide +kernel, ["docs"], by decide, by decide, ?_⟩
    intro above hbegins hne
    obtain rfl : above = ["docs"] := by
      obtain ⟨name, more, rfl⟩ := List.exists_cons_of_ne_nil hne
      obtain ⟨rfl, hmore⟩ := List.cons_prefix_cons.1 hbegins
      rw [List.prefix_nil.1 hmore]
    exact hset.2

end FileRoutes
