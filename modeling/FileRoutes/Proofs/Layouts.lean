import FileRoutes.Proofs.Stored

/-!
# Authored layouts are kept

The layout of a directory may be wrapped, taken out with its directory, or put into the list of
another one on its way into the configuration. It is never lost: the effective layout of every
directory that a build lists is the file of one entry, the other layout files are the file of none,
and the entry of a page or not-found page stands inside the layouts of all directories on the way
to it, in their order.

Main result: `Job.Run.layouts_kept`, on every interleaved run of a build on any storage that lists
entries once and by their names.
-/

namespace FileRoutes

/-! ### The listings of a run -/

/-- The entries that a call on the directory at `path` listed. -/
def Event.listing? (path : Path) : Event → Option (List Listed)
  | ⟨.list other, .ok listing⟩ => if other = path then some listing else none
  | _ => none

/-- The entries that the directory at `path` was found to have. -/
def listingOf? (events : List Event) (path : Path) : Option (List Listed) :=
  events.findSome? (Event.listing? path)

theorem Event.listing?_eq_some_iff {path : Path} {listing : List Listed} {e : Event} :
    e.listing? path = some listing ↔ e = .listed path listing := by
  obtain ⟨c, reply⟩ := e
  cases c with
  | list other =>
    cases reply with
    | error f => simp [listing?, listed]
    | ok entries =>
      simp only [listing?, listed, Option.ite_none_right_eq_some, Option.some.injEq]
      constructor
      · rintro ⟨rfl, rfl⟩
        rfl
      · intro h
        cases h
        exact ⟨rfl, rfl⟩
  | _ => simp [listing?, listed]

/-- What a directory was found to have, it was listed to have. -/
theorem mem_of_listingOf? {events : List Event} {path : Path} {listing : List Listed}
    (h : listingOf? events path = some listing) : Event.listed path listing ∈ events := by
  obtain ⟨e, he, hlisting⟩ := List.exists_of_findSome?_eq_some h
  exact Event.listing?_eq_some_iff.1 hlisting ▸ he

namespace Options

variable (o : Options)

/-- The path of the directory that `folders` lead to from the routes directory. -/
def directoryPath (folders : List String) : Path :=
  o.root.join (pathBelow (startDirectory o.routes) folders)

/-- The reference of the file `name` in the directory that `folders` lead to. -/
def referenceOf (folders : List String) (name : String) : String :=
  fileReference (pathBelow (startDirectory o.routes) (folders ++ [name]))

/-- The reference of the effective layout of a directory that was listed. -/
def effectiveLayoutOf? (ignored : IgnoreSet) (events : List Event) (folders : List String) :
    Option String := do
  let listing ← listingOf? events (o.directoryPath folders)
  let name ← effectiveLayout? ignored (pathBelow (startDirectory o.routes) folders) listing
  return o.referenceOf folders name

/-- The directory that `folders` lead to was listed with this live file. -/
def ListsLive (ignored : IgnoreSet) (events : List Event) (folders : List String)
    (role : Convention) (name : String) : Prop :=
  ∃ listing, listingOf? events (o.directoryPath folders) = some listing ∧
    (role, name) ∈ liveFiles ignored (pathBelow (startDirectory o.routes) folders) listing

/-- The directory that `folders` lead to was listed without an effective layout. -/
def LacksLayout (ignored : IgnoreSet) (events : List Event) (folders : List String) : Prop :=
  ∃ listing, listingOf? events (o.directoryPath folders) = some listing ∧
    effectiveLayout? ignored (pathBelow (startDirectory o.routes) folders) listing = none

end Options

/-- The directories of the folder are those that were listed, and its listings are what they were
listed with. -/
def Folder.ListedIn (F : Folder) (o : Options) (events : List Event) : Prop :=
  ∀ folders, (∀ name ∈ folders, IsName name) → ∀ listing,
    listingOf? events (o.directoryPath folders) = some listing ↔ (folders, listing) ∈ F.folders

/-- A directory of a lawful folder was listed with what the folder has for it. -/
theorem Folder.ListedIn.listingOf?_eq {F : Folder} {o : Options} {events : List Event}
    (hlistings : F.ListedIn o events) (h : F.Lawful) {folders : List String}
    {listing : List Listed} (hd : (folders, listing) ∈ F.folders) :
    listingOf? events (o.directoryPath folders) = some listing :=
  (hlistings folders (h.names.of_mem_folders hd) listing).2 hd

/-- **A build of lawful listings returns the nodes of a lawful folder**, which has the listings of
the run. -/
theorem Job.Run.exists_lawful_folder {σ : Type} {storage : Storage (StateM σ)} {o : Options}
    {depth : Nat} {s s' : σ} {events : List Event} {job : Job (List Node)} {tree : List Node}
    (h : Job.Run storage (buildTree o depth) s events job s')
    (hresult : job.result? = some (.ok tree))
    (hlawful : ∀ path listing, Event.listed path listing ∈ events → LawfulListing listing) :
    ∃ (ignored : IgnoreSet) (F : Folder), IgnoreSet.ofTexts o.ignored = .ok ignored ∧
      F.Lawful ∧
      tree = F.nodes ignored (o.cache.referenceFor (startDirectory o.routes))
        (startDirectory o.routes) ∧
      F.ListedIn o events := by
  obtain ⟨ignored, F, hignored, -, htree, hevents⟩ := h.exists_folder hresult
  have hF : F.Lawful := fun d hd =>
    hlawful _ _ (Multiset.mem_coe.1 ((hevents _ _).2 ⟨d, hd, rfl, rfl⟩))
  refine ⟨ignored, F, hignored, hF, htree, fun folders hfolders listing => ?_⟩
  have hlisted : ∀ {entries}, Event.listed (o.directoryPath folders) entries ∈ events ↔
      (folders, entries) ∈ F.folders := by
    intro entries
    rw [← Multiset.mem_coe, hevents]
    constructor
    · rintro ⟨d, hd, hpath, rfl⟩
      -- no two directories of a scan have one path
      have hsame := join_pathBelow_inj (isAbsolute_startDirectory o.routes) hfolders
        (hF.names.of_mem_folders hd) hpath
      exact hsame ▸ hd
    · exact fun hd => ⟨_, hd, rfl, rfl⟩
  constructor
  · exact fun hlisting => hlisted.1 (mem_of_listingOf? hlisting)
  · intro hd
    have hsome : (listingOf? events (o.directoryPath folders)).isSome = true := by
      rw [listingOf?, List.findSome?_isSome_iff]
      exact ⟨_, hlisted.2 hd, by rw [Event.listing?_eq_some_iff.2 rfl]; rfl⟩
    obtain ⟨other, hother⟩ := Option.isSome_iff_exists.1 hsome
    have hmem := hlisted.1 (mem_of_listingOf? hother)
    have hsame := List.inj_on_of_nodup_map hF.nodup_folders hmem hd rfl
    rw [hother, (Prod.mk.inj hsame).2]

/-- The files of a listed directory keep their layouts in a configuration: the effective layout is
the file of one entry, every other layout file that of none, and each live page and not-found page
that of one entry, which stands inside the effective layouts of all directories on the way to it,
the directory's own included, outermost first. -/
structure KeepsLayouts (o : Options) (ignored : IgnoreSet) (events : List Event)
    (entries : List Entry) (folders : List String) (listing : List Listed) : Prop where
  effective : ∀ name,
    effectiveLayout? ignored (pathBelow (startDirectory o.routes) folders) listing = some name →
    ∃ p, Entry.showing entries (o.referenceOf folders name) = [p]
  overridden : ∀ e ∈ listing, e.isDirectory = false →
    Convention.ofFileName? e.name = some .layout →
    effectiveLayout? ignored (pathBelow (startDirectory o.routes) folders) listing ≠ some e.name →
    Entry.showing entries (o.referenceOf folders e.name) = []
  page : ∀ e ∈ listing, ∀ role, role ≠ Convention.layout →
    liveRole? ignored (pathBelow (startDirectory o.routes) folders) e = some role →
    ∃ p, Entry.showing entries (o.referenceOf folders e.name) = [p] ∧
      (folders.inits.filterMap (o.effectiveLayoutOf? ignored events)).Sublist p.files

/-- **Authored layouts are kept in their order**: in every run of a build that returns a tree, on a
storage that lists every entry once and by its name, and for every directory that it listed. -/
theorem Job.Run.layouts_kept {σ : Type} {storage : Storage (StateM σ)} {o : Options} {depth : Nat}
    {s s' : σ} {events : List Event} {job : Job (List Node)} {tree : List Node}
    (hrun : Job.Run storage (buildTree o depth) s events job s')
    (hresult : job.result? = some (.ok tree))
    (hlawful : ∀ path listing, Event.listed path listing ∈ events → LawfulListing listing) :
    ∃ ignored, IgnoreSet.ofTexts o.ignored = .ok ignored ∧
      ∀ folders listing, (∀ name ∈ folders, IsName name) →
        listingOf? events (o.directoryPath folders) = some listing →
        KeepsLayouts o ignored events (convert tree) folders listing := by
  obtain ⟨ignored, F, hignored, hF, rfl, hlistings⟩ := hrun.exists_lawful_folder hresult hlawful
  refine ⟨ignored, hignored, fun folders listing hfolders hlisting => ?_⟩
  have hd := (hlistings folders hfolders listing).1 hlisting
  constructor
  case effective =>
    intro name hlayout
    obtain ⟨p, -, hp, -⟩ := hF.exists_showing_eq o.cache (startDirectory o.routes)
      (Folder.mem_flatMap_liveIn_iff.2 ⟨listing, hd, mem_liveFiles_layout_iff.2 hlayout⟩)
    exact ⟨p, hp⟩
  case overridden =>
    intro e he _ hrole hother
    refine hF.showing_eq_nil hfolders ((hF _ hd).isName e he) hrole fun hmem => ?_
    -- the only layout of a directory that is live is the effective one
    obtain ⟨entries, hentries, hlive⟩ := Folder.mem_flatMap_liveIn_iff.1 hmem
    have hsame := List.inj_on_of_nodup_map hF.nodup_folders hentries hd rfl
    rw [(Prod.mk.inj hsame).2] at hlive
    exact hother (mem_liveFiles_layout_iff.1 hlive)
  case page =>
    intro e he role hrole hlive
    obtain ⟨p, x, hp, hx, hfound, hshown⟩ :=
      hF.exists_showing_eq o.cache (startDirectory o.routes)
        (Folder.mem_flatMap_liveIn_iff.2 ⟨listing, hd, (mem_liveFiles_page_iff hrole).2
          ⟨e, he, rfl, hlive⟩⟩)
    obtain ⟨rfl, rfl, -⟩ := Exhibit.found?_eq_some_iff.1 hfound
    refine ⟨p, hp, (Folder.layouts_sublist_around (fun d hd => ?_) x hx hrole).trans
      hshown.around⟩
    have hlisted := (hlistings d.1 (hF.names.of_mem_folders hd) d.2).2 hd
    rw [Options.effectiveLayoutOf?, hlisted]
    cases hname : effectiveLayout? ignored (pathBelow (startDirectory o.routes) d.1) d.2 <;>
      simp [hname, Options.referenceOf]

/-- The layouts of the users' pages are kept. -/
theorem Job.Run.layouts_kept_users : ∃ events job m',
    Job.Run Memory.storage (buildTree {} 4) Memory.users events job m' ∧
      job.result? = some (.ok Memory.usersTree) ∧
      ∃ ignored, IgnoreSet.ofTexts [] = .ok ignored ∧
        ∀ folders listing, (∀ name ∈ folders, IsName name) →
          listingOf? events (Options.directoryPath {} folders) = some listing →
          KeepsLayouts {} ignored events (convert Memory.usersTree) folders listing := by
  obtain ⟨events, job, m', hrun, hresult⟩ := Memory.exists_run_users
  exact ⟨events, job, m', hrun, hresult, Job.Run.layouts_kept hrun hresult fun _ _ hlisted =>
    hrun.lawful_listed (Memory.reachable_ofFiles _) hlisted⟩

end FileRoutes
