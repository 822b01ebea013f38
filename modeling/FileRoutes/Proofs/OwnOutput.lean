import FileRoutes.Proofs.Addresses
import FileRoutes.Proofs.Schedule

/-!
# Building on what builds have made

A build that succeeds leaves its placeholders behind, in a cache directory that it has made with all
directories around it. The next build starts from there, and nothing in a scan tells these
directories from any others: it **enters** a directory if names lead there from the routes directory
and none of the directories on the way is passed over. So whether builds go into what earlier builds
have made is decided by where the cache lies and by the ignore patterns.

The placeholders found there do no harm, as their names mean nothing to the directory that they are
in: however many builds have gone before, a configuration serves the files that were live before the
first of them. But the directories found there are directories like any others, and the tree has
routes for them (`Memory.own_output_listed`).

Main result: `Job.Run.own_output_listed_iff`.
-/

namespace FileRoutes

open Memory Job

/-- Builds that succeed one after the other, each on the memory that the one before has left. -/
inductive Memory.Rebuilt (o : Options) (m : Memory) : Memory → Prop
  | refl : Rebuilt o m m
  | build {t u : Memory} {depth : Nat} {events : List Event} {job : Job (List Node)}
    {tree : List Node} (before : Rebuilt o m t)
    (hrun : Job.Run storage (FileRoutes.buildTree o depth) t events job u)
    (hresult : job.result? = some (.ok tree)) : Rebuilt o m u

/-- The directory at the location was listed, under one of its paths. -/
def Job.ListedAt (events : List Event) (l : Location) : Prop :=
  ∃ path listing, Event.listed path listing ∈ events ∧ path.location = l

/-- Names lead to the location from the routes directory, and no directory on the way there is
passed over. -/
def Options.Enters (o : Options) (ignored : IgnoreSet) (l : Location) : Prop :=
  ∃ names, l = o.routesLocation.descend names ∧ (∀ n ∈ names, n ≠ "..") ∧
    ∀ above, above <+: names → above ≠ [] →
      ignored.ignoresDirectory (pathBelow (startDirectory o.routes) above) = false

variable {o : Options} {ignored : IgnoreSet} {m t : Memory}

/-- Names lead further down. -/
theorem Location.below_descend (directory : Location) (names : List String) :
    directory.Below (directory.descend names) :=
  ⟨rfl, List.prefix_append _ _⟩

/-- All directories that a scan enters are in the routes directory. -/
theorem Options.Enters.below {l : Location} (h : o.Enters ignored l) :
    o.routesLocation.Below l := by
  obtain ⟨names, heq, -⟩ := h
  exact heq ▸ Location.below_descend _ names

namespace Memory

/-- Builds that succeed let the memory grow. -/
theorem Rebuilt.grows (h : Rebuilt o m t) :
    Grows (fun _ _ => none) o.cache (fun _ => True) m t := by
  induction h with
  | refl => exact .refl m
  | build _ hrun _ ih =>
    rw [← storage.faulty_none] at hrun
    exact ih.trans hrun.grows

/-- What builds leave of a memory that was built up call by call was built up so as well. -/
theorem Rebuilt.reachable (h : Rebuilt o m t) (hm : m.Reachable) : t.Reachable := by
  induction h with
  | refl => exact hm
  | build _ hrun _ ih => exact hrun.reachable ih

end Memory

namespace Folder

variable {F : Folder} {events : List Event}

/-- What was seen in a memory was seen in the one that it has grown from. -/
theorem SeenIn.of_grows (h : F.SeenIn o t)
    (hgrows : Grows (fun _ _ => none) o.cache (fun _ => True) m t) : F.SeenIn o m := by
  intro d hd
  obtain ⟨u, hu, hlist, hlater⟩ := h d hd
  exact ⟨u, hu, hlist, hgrows.trans hlater⟩

/-- A scan lists what it enters only. -/
theorem SeenIn.enters (h : F.SeenIn o t) (hfollowed : F.Followed ignored (startDirectory o.routes))
    (hevents : Scan.ListsFolders o.root (startDirectory o.routes) events F.folders) {l : Location}
    (hl : Job.ListedAt events l) : o.Enters ignored l := by
  obtain ⟨path, listing, hlisted, rfl⟩ := hl
  obtain ⟨d, hd, rfl, rfl⟩ := (hevents _ _).1 (Multiset.mem_coe.2 hlisted)
  have hnames := h.names.of_mem_folders hd
  exact ⟨d.1, o.location_join_pathBelow fun n hn => (hnames n hn).1, fun n hn => (hnames n hn).2,
    fun above hbegins hne => hfollowed.ignoresDirectory_eq_false hd hbegins hne⟩

/-- A scan lists every directory that it enters and that is there when it starts. -/
theorem SeenIn.listedAt (h : F.SeenIn o t) (ht : t.WellFormed)
    (hfollowed : F.Followed ignored (startDirectory o.routes))
    (hevents : Scan.ListsFolders o.root (startDirectory o.routes) events F.folders) {l : Location}
    (hl : l ∈ t.dirs) (henters : o.Enters ignored l) : Job.ListedAt events l := by
  obtain ⟨names, rfl, hdotdot, hentered⟩ := henters
  obtain ⟨listing, hd⟩ := h.exists_mem_folders ht hfollowed hdotdot (.inr hl) hentered
  refine ⟨_, listing, Multiset.mem_coe.1 ((hevents _ _).2 ⟨_, hd, rfl, rfl⟩), ?_⟩
  exact o.location_join_pathBelow fun n hn => (h.names.of_mem_folders hd n hn).1

end Folder

/-! ### Building twice -/

namespace Memory

/-- The root of the application is its routes directory, and holds the cache. -/
def homeOptions : Options where
  root := ⟨"app"⟩
  routes := ""

/-- One page. -/
def home : Memory :=
  .ofFiles [(⟨"app/page.tsx"⟩, "")]

/-- The route tree of the page. -/
def homeTree : List Node :=
  [.layout ".react-router/layouts/root.layout.tsx" [.indexPage "./page.tsx"]]

/-- The route tree of the page after it was built once. -/
def homeTreeAgain : List Node :=
  [.layout ".react-router/layouts/root.layout.tsx"
    [.route ".react-router" false
      [.layout ".react-router/layouts/react-router.layout.tsx" [.route "layouts" false []]],
    .indexPage "./page.tsx"]]

/-- The page is built, and then once more. -/
theorem buildTree_home : (home.buildTree homeOptions).1 = .ok homeTree ∧
    ((home.buildTree homeOptions).2.buildTree homeOptions).1 = .ok homeTreeAgain := by
  decide +kernel

end Memory

/-! ### What builds go into -/

/-- **Builds go into what builds have made** where it lies in the routes directory and is not passed
over, and nowhere else. Let any number of builds succeed on a memory, and then another one, each in
any order of its calls. A directory that the earlier ones have made is the cache or holds it, and
the last one lists it if and only if it enters it; other directories that were not there at first
it lists only if it has made them for the cache itself, and enters them. So it lists none at all if
the cache is outside the routes directory. In any case its configuration serves the files that were
live at first, and nothing else. -/
theorem Job.Run.own_output_listed_iff {depth : Nat} {u : Memory} {events : List Event}
    {job : Job (List Node)} {tree : List Node} (hm : m.Reachable) (hbuilt : Rebuilt o m t)
    (hrun : Run storage (FileRoutes.buildTree o depth) t events job u)
    (hresult : job.result? = some (.ok tree)) :
    ∃ ignored, IgnoreSet.ofTexts o.ignored = .ok ignored ∧
      (∀ l ∈ t.dirs, l ∉ m.dirs → l ∈ o.cache.path.location.withAncestors ∧
        (ListedAt events l ↔ o.Enters ignored l)) ∧
      (∀ l, ListedAt events l → l ∉ m.dirs →
        l ∈ o.cache.path.location.withAncestors ∧ o.Enters ignored l) ∧
      (¬ o.routesLocation.Below o.cache.path.location →
        ∀ l, ListedAt events l → l ∈ m.dirs) ∧
      ServesLive o ignored m (convert tree) := by
  obtain ⟨ignored, F, hignored, hfollowed, rfl, hevents⟩ := hrun.exists_folder hresult
  have ht := hbuilt.reachable hm
  have hseen : F.SeenIn o t := fun d hd =>
    hrun.exists_list_eq ht (Multiset.mem_coe.1 ((hevents _ _).2 ⟨d, hd, rfl, rfl⟩))
  have hnew : ∀ l, ListedAt events l → l ∉ m.dirs →
      l ∈ o.cache.path.location.withAncestors ∧ o.Enters ignored l := by
    rintro l hl hnot
    refine ⟨?_, hseen.enters hfollowed hevents hl⟩
    obtain ⟨path, listing, hlisted, rfl⟩ := hl
    obtain ⟨v, -, hlist, hgrows⟩ := hrun.exists_list_eq ht hlisted
    exact ((hbuilt.grows.trans hgrows).mem_dirs (list_eq_ok_iff.1 hlist).1).resolve_left hnot
  refine ⟨ignored, hignored, fun l hl hnot => ⟨?_, ?_⟩, hnew, fun hcache l hl => ?_, ?_⟩
  · exact (hbuilt.grows.mem_dirs hl).resolve_left hnot
  · exact ⟨hseen.enters hfollowed hevents, hseen.listedAt ht.wellFormed hfollowed hevents hl⟩
  · -- a directory that is entered and holds the cache would have the cache below the routes
    by_contra hnot
    obtain ⟨hholds, henters⟩ := hnew l hl hnot
    obtain ⟨habsolute, hbegins⟩ := Location.names_prefix_of_mem_withAncestors hholds
    exact hcache ⟨henters.below.1.trans habsolute, henters.below.2.trans hbegins⟩
  · exact (hseen.of_grows hbuilt.grows).servesLive hm.wellFormed hfollowed

/-- The second build of the page goes into a directory that the first one has made. -/
theorem Job.Run.own_output_listed_iff_home : ∃ t events job u,
    Rebuilt homeOptions home t ∧
      Run storage (FileRoutes.buildTree homeOptions (t.scanDepth homeOptions)) t events job u ∧
      job.result? = some (.ok homeTreeAgain) ∧
      ListedAt events ⟨false, ["app", ".react-router"]⟩ ∧
      ∃ ignored, IgnoreSet.ofTexts [] = .ok ignored ∧
        ServesLive homeOptions ignored home (convert homeTreeAgain) := by
  obtain ⟨events, job, hrun, hresult⟩ := Job.exists_run_sequential storage
    (FileRoutes.buildTree homeOptions (home.scanDepth homeOptions)) home
  have hbuilt : Rebuilt homeOptions home (home.buildTree homeOptions).2 :=
    .build .refl hrun (hresult.trans (congrArg some buildTree_home.1))
  generalize ht : (home.buildTree homeOptions).2 = t at hbuilt
  obtain ⟨events', job', hrun', hresult'⟩ := Job.exists_run_sequential storage
    (FileRoutes.buildTree homeOptions (t.scanDepth homeOptions)) t
  have hagain : job'.result? = some (.ok homeTreeAgain) :=
    hresult'.trans (congrArg some (ht ▸ buildTree_home.2))
  obtain ⟨ignored, hignored, hmade, -, -, hserves⟩ :=
    Job.Run.own_output_listed_iff (reachable_ofFiles _) hbuilt hrun' hagain
  have hdirectory : ⟨false, ["app", ".react-router"]⟩ ∈ t.dirs := by
    rw [← ht]
    decide +kernel
  have henters : homeOptions.Enters ignored ⟨false, ["app", ".react-router"]⟩ := by
    obtain rfl : {} = ignored := Except.ok.inj hignored
    exact ⟨[".react-router"], by decide, by decide, fun _ _ _ => rfl⟩
  have hlisted := (hmade _ hdirectory (by decide +kernel)).2.2 henters
  exact ⟨t, events', job', _, hbuilt, hrun', hagain, hlisted, ignored, hignored, hserves⟩

/-- The second build lists the cache and the directory around it, which the first has made. -/
theorem Memory.own_output_listed :
    let built := (home.buildTree homeOptions).2
    let again := ((FileRoutes.buildTree homeOptions (built.scanDepth homeOptions)).run
      storage.recorded).run []
    (home.buildTree homeOptions).1 = .ok homeTree ∧
      (built.buildTree homeOptions).1 = .ok homeTreeAgain ∧
      (∀ path ∈ ["app/.react-router", "app/.react-router/layouts"],
        .list ⟨path⟩ ∈ (again.run built).1.2 ∧
          Path.location ⟨path⟩ ∈ homeOptions.cache.path.location.withAncestors ∧
          Path.location ⟨path⟩ ∉ home.dirs) ∧
      homeTree ≠ homeTreeAgain := by
  refine ⟨buildTree_home.1, buildTree_home.2, ?_, ?_⟩
  · decide +kernel
  · decide +kernel

end FileRoutes
