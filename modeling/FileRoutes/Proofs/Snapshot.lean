import FileRoutes.Compile
import FileRoutes.Proofs.Interleaving

/-!
# What a scan has seen

A scan lists directories one by one, while its own placeholders and whatever else uses the storage
may change them. The tree that it builds depends on what it was shown and on nothing else: a
**folder** is a directory as the scan saw it, the entries in listing order and, in place of each
directory that it went into, what it saw there.

Main result: whenever a build returns nodes, in whatever order its calls were made, there is a
folder whose listings are exactly the listings among its calls, and the nodes are those of that
folder (`Job.Run.exists_folder`).
-/

namespace FileRoutes

/-! ### Paths below a directory -/

/-- The path of what is found below the directory at `directory` by following `names`, seen from
the root. -/
def pathBelow (directory : String) (names : List String) : String :=
  names.foldl entryPath directory

@[simp] theorem pathBelow_nil (directory : String) : pathBelow directory [] = directory := rfl

@[simp] theorem pathBelow_cons (directory name : String) (names : List String) :
    pathBelow directory (name :: names) = pathBelow (entryPath directory name) names := rfl

theorem pathBelow_append (directory : String) (names more : List String) :
    pathBelow directory (names ++ more) = pathBelow (pathBelow directory names) more :=
  List.foldl_append

theorem pathBelow_concat (directory : String) (names : List String) (name : String) :
    pathBelow directory (names ++ [name]) = entryPath (pathBelow directory names) name := by
  rw [pathBelow_append, pathBelow_cons, pathBelow_nil]

/-! ### Folders -/

/-- A directory as a scan saw it: its entries in listing order. -/
inductive Folder where
  /-- No more entries. -/
  | nil
  /-- An entry that is not gone into: a file, or a directory that is passed over. -/
  | entry (e : Listed) (rest : Folder)
  /-- A directory that is gone into, with what is seen inside. -/
  | directory (name : String) (inside rest : Folder)
deriving Repr

namespace Folder

/-- The entries of the directory. -/
def listing : Folder → List Listed
  | nil => []
  | entry e rest => e :: rest.listing
  | directory name _ rest => ⟨name, true⟩ :: rest.listing

/-- The listings seen below the directory, with the names that lead to each. -/
def foldersBelow : Folder → List (List String × List Listed)
  | nil => []
  | entry _ rest => rest.foldersBelow
  | directory name inside rest =>
    (([], inside.listing) :: inside.foldersBelow).map (fun x => (name :: x.1, x.2)) ++
      rest.foldersBelow

/-- All listings seen, with the names that lead to each. -/
def folders (F : Folder) : List (List String × List Listed) :=
  ([], F.listing) :: F.foldersBelow

variable (ignored : IgnoreSet) (reference : String → String)

/-- The scan went into the directories that are not to be passed over, and into no other entry. -/
def Followed : (path : String) → Folder → Prop
  | _, nil => True
  | path, entry e rest =>
    (e.isDirectory = true → ignored.ignoresDirectory (entryPath path e.name) = true) ∧
      Followed path rest
  | path, directory name inside rest =>
    ignored.ignoresDirectory (entryPath path name) = false ∧
      Followed (entryPath path name) inside ∧ Followed path rest

/-- What is found in the directory. -/
def findings (path : String) (F : Folder) : List Scan.Finding :=
  F.listing.filterMap (Scan.finding? ignored path)

/-- The file around the nodes of the directory at `path`: its own layout, or a placeholder if the
nodes need one. -/
def wrapper? (path : String) (F : Folder) (nodes : List Node) : Option String :=
  match Scan.layoutPath? (F.findings ignored path) with
  | some layout => some (fileReference layout)
  | none => if Scan.needsPlaceholder nodes then some (reference path) else none

/-- The nodes inside a layout, if there is one. -/
def wrapped (file? : Option String) (nodes : List Node) : List Node :=
  match file? with
  | some file => [.layout file nodes]
  | none => nodes

/-- The nodes of the directory from those found in it: in order of precedence, and wrapped. -/
def close (path : String) (F : Folder) (found : List Node) : List Node :=
  wrapped (F.wrapper? ignored reference path (Node.sortSiblings found)) (Node.sortSiblings found)

/-- The nodes found in the directory at `path`, in listing order. -/
def found : (path : String) → Folder → List Node
  | _, nil => []
  | path, entry e rest =>
    (match Scan.finding? ignored path e with
      | some (.node n) => [n]
      | _ => []) ++ found path rest
  | path, directory name inside rest =>
    Scan.nodesOfDirectory name
        (inside.close ignored reference (entryPath path name)
          (found (entryPath path name) inside)) ++
      found path rest

/-- The nodes of the directory at `path`. -/
def nodes (path : String) (F : Folder) : List Node :=
  F.close ignored reference path (F.found ignored reference path)

/-! ### Folders as lists of findings -/

/-- The nodes of each directory that was gone into, in listing order. -/
def scanned : (path : String) → Folder → List (List Node)
  | _, nil => []
  | path, entry _ rest => scanned path rest
  | path, directory name inside rest =>
    inside.nodes ignored reference (entryPath path name) :: scanned path rest

variable {ignored reference} {path : String} {F : Folder}

/-- A directory that is not to be passed over is gone into. -/
theorem finding?_directory {name : String}
    (h : ignored.ignoresDirectory (entryPath path name) = false) :
    Scan.finding? ignored path ⟨name, true⟩ = some (.directory name (entryPath path name)) := by
  simp [Scan.finding?, IgnoreSet.ignores, h]

/-- What is found is a directory to go into only for a directory that is not to be passed over. -/
theorem finding?_eq_directory_iff {e : Listed} {name below : String} :
    Scan.finding? ignored path e = some (.directory name below) ↔
      e = ⟨name, true⟩ ∧ below = entryPath path name ∧
        ignored.ignoresDirectory (entryPath path name) = false := by
  obtain ⟨n, d⟩ := e
  cases d
  · simp only [Scan.finding?, IgnoreSet.ignores, Bool.false_eq_true, if_false, Scan.findingOfFile?]
    split
    · simp
    · split <;> simp
  · simp only [Scan.finding?, IgnoreSet.ignores, if_true]
    cases h : ignored.ignoresDirectory (entryPath path n) with
    | true =>
      simp only [if_true, reduceCtorEq, false_iff, not_and, Listed.mk.injEq]
      rintro ⟨rfl, -⟩ -
      simp [h]
    | false =>
      simp only [Bool.false_eq_true, if_false, Option.some.injEq, Scan.Finding.directory.injEq,
        Listed.mk.injEq, and_true]
      constructor
      · rintro ⟨rfl, rfl⟩
        exact ⟨rfl, rfl, h⟩
      · rintro ⟨rfl, rfl, -⟩
        exact ⟨rfl, rfl⟩

/-- The nodes found are those of the findings, given the nodes of each directory gone into. -/
theorem found_eq_nodesOf (h : F.Followed ignored path) :
    F.found ignored reference path =
      Scan.nodesOf (F.findings ignored path) (F.scanned ignored reference path) := by
  induction F generalizing path with
  | nil => simp [found, findings, listing, Scan.nodesOf]
  | entry e rest ih =>
    obtain ⟨he, hrest⟩ := h
    rw [found, ih hrest]
    cases hf : Scan.finding? ignored path e with
    | none => simp [findings, listing, scanned, hf]
    | some finding =>
      cases finding with
      | node n => simp [findings, listing, scanned, hf, Scan.nodesOf]
      | layout file => simp [findings, listing, scanned, hf, Scan.nodesOf]
      | directory name below =>
        obtain ⟨rfl, -, hopen⟩ := finding?_eq_directory_iff.1 hf
        simp [hopen] at he
  | directory name inside rest ihinside ihrest =>
    obtain ⟨hopen, hinside, hrest⟩ := h
    rw [found, ihrest hrest]
    simp [findings, listing, scanned, finding?_directory hopen, Scan.nodesOf, nodes]

end Folder

/-! ### Scanning -/

namespace LayoutCache

/-- The reference of the placeholder for the directory at `path`, where the routes directory is at
`start`. -/
def referenceFor (cache : LayoutCache) (start path : String) : String :=
  cache.reference (routeDirectory start path)

section

open Job

variable {cache : LayoutCache} {directory : String} {a : List Node}
  {next : Except Fault String → Job (List Node)} {events : Multiset Event}

/-- Writing a placeholder lists nothing, and what follows gets its reference. -/
theorem yields_ensureFile (hfail : ∀ f, next (.error f) = .done (.error f))
    (h : Yields (cache.ensureFile directory next) events a) :
    ∃ rest, Yields (next (.ok (cache.reference directory))) rest a ∧
      ∀ p listing, Event.listed p listing ∈ events ↔ Event.listed p listing ∈ rest := by
  obtain ⟨reply, rest, rfl, hreply⟩ := yields_call_iff.1 h
  have hprobe := @Event.listed_mem_cons_iff ⟨.probe (cache.filePath directory), reply⟩
    (by simp [Call.kind])
  -- the question failed, or the file is missing and written, or it is there
  rcases reply with f | (_ | _)
  · simp [hfail] at hreply
  · obtain ⟨written, last, rfl, hwritten⟩ := yields_call_iff.1 hreply
    rcases written with f | _
    · simp [hfail] at hwritten
    · exact ⟨last, hwritten, fun p listing =>
        hprobe.trans (Event.listed_mem_cons_iff (by simp [Call.kind]))⟩
  · exact ⟨rest, hreply, fun p listing => hprobe⟩

/-- Making sure of a placeholder lists nothing, and what follows gets its reference. -/
theorem yields_source (hfail : ∀ f, next (.error f) = .done (.error f))
    (h : Yields (cache.source directory next) events a) :
    ∃ rest, Yields (next (.ok (cache.reference directory))) rest a ∧
      ∀ p listing, Event.listed p listing ∈ events ↔ Event.listed p listing ∈ rest := by
  obtain ⟨reply, rest, rfl, hreply⟩ := yields_call_iff.1 h
  have hprobe := @Event.listed_mem_cons_iff ⟨.probe cache.path, reply⟩ (by simp [Call.kind])
  rcases reply with f | (_ | _)
  · simp [hfail] at hreply
  · obtain ⟨made, last, rfl, hmade⟩ := yields_call_iff.1 hreply
    rcases made with f | _
    · simp [hfail] at hmade
    · obtain ⟨after, hafter, hsame⟩ := yields_ensureFile hfail hmade
      exact ⟨after, hafter, fun p listing =>
        hprobe.trans ((Event.listed_mem_cons_iff (by simp [Call.kind])).trans (hsame p listing))⟩
  · obtain ⟨after, hafter, hsame⟩ := yields_ensureFile hfail hreply
    exact ⟨after, hafter, fun p listing => hprobe.trans (hsame p listing)⟩

end

end LayoutCache

namespace Scan

open Job

variable {root : Path} {start path : String} {ignored : IgnoreSet} {cache : LayoutCache}
  {depth : Nat} {events : Multiset Event} {nodes : List Node}

/-- Wrapping lists nothing, and gives the nodes of the directory. -/
theorem yields_wrap {F : Folder} {found : List Node}
    (h : Yields (wrap ⟨root, start, ignored, cache.source⟩ path
      (layoutPath? (F.findings ignored path)) (Node.sortSiblings found)) events nodes) :
    nodes = F.close ignored (cache.referenceFor start) path found ∧
      ∀ p listing, Event.listed p listing ∉ events := by
  unfold wrap at h
  unfold Folder.close Folder.wrapper?
  cases hlayout : layoutPath? (F.findings ignored path) with
  | some layout =>
    rw [hlayout] at h
    obtain ⟨hdone, rfl⟩ := yields_done_iff.1 h
    exact ⟨(Except.ok.inj hdone).symm, by simp⟩
  | none =>
    rw [hlayout] at h
    cases hneeds : needsPlaceholder (Node.sortSiblings found) with
    | false =>
      simp only [hneeds, Bool.false_eq_true, if_false] at h ⊢
      obtain ⟨hdone, rfl⟩ := yields_done_iff.1 h
      exact ⟨(Except.ok.inj hdone).symm, by simp⟩
    | true =>
      simp only [hneeds, if_true] at h ⊢
      obtain ⟨rest, hrest, hsame⟩ := LayoutCache.yields_source (fun f => rfl) h
      obtain ⟨hdone, rfl⟩ := yields_done_iff.1 hrest
      exact ⟨(Except.ok.inj hdone).symm, by simpa using hsame⟩

/-- The calls list exactly the directories of the folder, each with the entries seen there. -/
def ListsFolders (root : Path) (path : String) (events : Multiset Event)
    (folders : List (List String × List Listed)) : Prop :=
  ∀ p listing, Event.listed p listing ∈ events ↔
    ∃ x ∈ folders, p = root.join (pathBelow path x.1) ∧ listing = x.2

/-- The directories of a listing with what was seen in each of them make a folder. -/
private theorem exists_folder_of_family {child : String → Job (List Node)}
    {reference : String → String} {listing : List Listed}
    {family : List (Job (List Node) × Multiset Event × List Node)}
    (hjobs : (directoryPaths (listing.filterMap (finding? ignored path))).map child =
      family.map Prod.fst)
    (hfamily : ∀ x ∈ family, Yields x.1 x.2.1 x.2.2)
    (ih : ∀ {path events nodes}, Yields (child path) events nodes →
      ∃ F : Folder, F.Followed ignored path ∧ nodes = F.nodes ignored reference path ∧
        ListsFolders root path events F.folders) :
    ∃ F : Folder, F.listing = listing ∧ F.Followed ignored path ∧
      F.scanned ignored reference path = family.map (fun x => x.2.2) ∧
      ListsFolders root path (family.map fun x => x.2.1).sum F.foldersBelow := by
  induction listing generalizing family with
  | nil =>
    obtain rfl : family = [] := by simpa [directoryPaths] using hjobs.symm
    exact ⟨.nil, rfl, trivial, rfl, by simp [ListsFolders, Folder.foldersBelow]⟩
  | cons e rest ihrest =>
    -- either the first job of the family is that of this entry, or the entry has none
    by_cases hopen : ∃ name below, finding? ignored path e = some (.directory name below)
    · obtain ⟨name, below, hfinding⟩ := hopen
      obtain ⟨rfl, rfl, hignored⟩ := Folder.finding?_eq_directory_iff.1 hfinding
      rw [List.filterMap_cons_some hfinding] at hjobs
      obtain ⟨x, others, rfl, hx, hothers⟩ := List.map_eq_cons_iff.1 hjobs.symm
      obtain ⟨hfirst, hrest⟩ := List.forall_mem_cons.1 hfamily
      obtain ⟨F, hlisting, hfollowed, hscanned, hevents⟩ := ihrest hothers.symm hrest
      rw [hx] at hfirst
      obtain ⟨G, hG, hnodes, hinside⟩ := ih hfirst
      refine ⟨.directory name G F, by simp [Folder.listing, hlisting], ⟨hignored, hG, hfollowed⟩,
        by simp [Folder.scanned, hscanned, hnodes], fun p listing => ?_⟩
      rw [List.map_cons, List.sum_cons, Multiset.mem_add, hinside, hevents]
      simp only [Folder.foldersBelow, Folder.folders, List.mem_append, List.mem_map]
      constructor
      · rintro (⟨y, hy, rfl, rfl⟩ | ⟨y, hy, rfl, rfl⟩)
        · exact ⟨(name :: y.1, y.2), .inl ⟨y, hy, rfl⟩, rfl, rfl⟩
        · exact ⟨y, .inr hy, rfl, rfl⟩
      · rintro ⟨z, ⟨y, hy, rfl⟩ | hz, rfl, rfl⟩
        · exact .inl ⟨y, hy, rfl, rfl⟩
        · exact .inr ⟨z, hz, rfl, rfl⟩
    · have hdirectories : directoryPaths ((e :: rest).filterMap (finding? ignored path)) =
          directoryPaths (rest.filterMap (finding? ignored path)) := by
        cases hfinding : finding? ignored path e with
        | none => rw [List.filterMap_cons_none hfinding]
        | some finding =>
          rw [List.filterMap_cons_some hfinding]
          cases finding with
          | node n => rfl
          | layout file => rfl
          | directory name below => exact absurd ⟨name, below, hfinding⟩ hopen
      rw [hdirectories] at hjobs
      obtain ⟨F, hlisting, hfollowed, hscanned, hevents⟩ := ihrest hjobs hfamily
      refine ⟨.entry e F, by simp [Folder.listing, hlisting], ⟨fun hdir => ?_, hfollowed⟩,
        by simp [Folder.scanned, hscanned], hevents⟩
      by_contra hignored
      refine hopen ⟨e.name, entryPath path e.name, Folder.finding?_eq_directory_iff.2
        ⟨?_, rfl, by simpa using hignored⟩⟩
      cases e
      simpa using hdir

/-- **A scan returns the nodes of a folder**: that of the listings it was given. -/
theorem exists_folder_of_yields
    (h : Yields (directory ⟨root, start, ignored, cache.source⟩ depth path) events nodes) :
    ∃ F : Folder, F.Followed ignored path ∧
      nodes = F.nodes ignored (cache.referenceFor start) path ∧
      ListsFolders root path events F.folders := by
  induction depth generalizing path events nodes with
  | zero => simp [directory] at h
  | succ depth ih =>
    rw [directory] at h
    obtain ⟨reply, rest, rfl, hreply⟩ := yields_call_iff.1 h
    cases reply with
    | error f => simp at hreply
    | ok listing =>
      obtain ⟨family, last, hjobs, rfl, hfamily, hwrap⟩ := yields_fork_iff.1 hreply
      obtain ⟨F, hlisting, hfollowed, hscanned, hevents⟩ := exists_folder_of_family hjobs hfamily ih
      -- the nodes that the fork was given are those scanned in the folder
      subst hlisting
      rw [← hscanned] at hwrap
      have hfound := @Folder.found_eq_nodesOf _ (cache.referenceFor start) _ _ hfollowed
      rw [Folder.findings] at hfound
      rw [← hfound] at hwrap
      obtain ⟨rfl, hlast⟩ := yields_wrap (F := F) hwrap
      refine ⟨F, hfollowed, rfl, fun p listing => ?_⟩
      rw [Multiset.mem_cons, Multiset.mem_add, hevents, or_iff_left (hlast p listing)]
      simp only [Folder.folders, List.exists_mem_cons_iff, pathBelow_nil]
      refine or_congr ⟨fun heq => ?_, ?_⟩ Iff.rfl
      · cases heq
        exact ⟨rfl, rfl⟩
      · rintro ⟨rfl, rfl⟩
        rfl

end Scan

/-- **A build returns the nodes of a folder**, in whatever order its calls were made. -/
theorem Job.Run.exists_folder {σ : Type} {storage : Storage (StateM σ)} {o : Options} {depth : Nat}
    {s s' : σ} {events : List Event} {job : Job (List Node)} {tree : List Node}
    (h : Job.Run storage (buildTree o depth) s events job s')
    (hresult : job.result? = some (.ok tree)) :
    ∃ (ignored : IgnoreSet) (F : Folder), IgnoreSet.ofTexts o.ignored = .ok ignored ∧
      F.Followed ignored (startDirectory o.routes) ∧
      tree = F.nodes ignored (o.cache.referenceFor (startDirectory o.routes))
        (startDirectory o.routes) ∧
      Scan.ListsFolders o.root (startDirectory o.routes) events F.folders := by
  have hyields := h.yields hresult
  unfold buildTree at hyields
  cases hignored : IgnoreSet.ofTexts o.ignored with
  | error f => simp [hignored] at hyields
  | ok ignored =>
    rw [hignored] at hyields
    obtain ⟨F, hF⟩ := Scan.exists_folder_of_yields hyields
    exact ⟨ignored, F, rfl, hF⟩

/-- A compilation that succeeds converts the tree that a run of the build returns. -/
theorem exists_run_of_compile {σ : Type} {storage : Storage (StateM σ)} {o : Options} {depth : Nat}
    {s s' : σ} {entries : List Entry}
    (h : (compile storage o depth).run s = (.ok entries, s')) :
    ∃ events job tree, Job.Run storage (buildTree o depth) s events job s' ∧
      job.result? = some (.ok tree) ∧ entries = convert tree := by
  obtain ⟨events, job, hrun, hresult⟩ := Job.exists_run_sequential storage (buildTree o depth) s
  have hcompile : ((((buildTree o depth).run storage).run s).1.map convert,
      (((buildTree o depth).run storage).run s).2) = (.ok entries, s') := h
  obtain ⟨htree, rfl⟩ := Prod.mk.inj hcompile
  cases hok : (((buildTree o depth).run storage).run s).1 with
  | error f => simp [hok, Except.map] at htree
  | ok tree =>
    rw [hok] at htree hresult
    exact ⟨events, job, tree, hrun, hresult, (Except.ok.inj htree).symm⟩

end FileRoutes
