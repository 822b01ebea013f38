import FileRoutes.Proofs.Live

/-!
# What a build adds to a memory

All that a build ever does to a memory is to put placeholders into its cache. This holds at any
moment of any run: whichever task makes the next call, whichever calls fail, and also while tasks
go on after the build has failed. What was there stays as it was, a new file is a placeholder that
lies directly in the cache directory, and a new directory is the cache directory or holds it.

The name of a placeholder cannot lead out of the cache: it opens with a stem
(`isStem_placeholderName`), so it is neither hidden nor one of the names `.` and `..`.

Main result: `Job.Run.only_placeholders_added`.
-/

namespace FileRoutes

namespace Memory

/-- The second memory is the first one with placeholders added to the cache. -/
structure AddsPlaceholders (cache : LayoutCache) (m m' : Memory) : Prop where
  /-- Files keep their contents. -/
  file : ∀ l contents, m.files.lookup l = some contents → m'.files.lookup l = some contents
  /-- Directories remain. -/
  directory : ∀ l ∈ m.dirs, l ∈ m'.dirs
  /-- A new file lies in the cache directory and is a placeholder by its contents and name. -/
  newFile : ∀ l contents, m.files.lookup l = none → m'.files.lookup l = some contents →
    l.parent? = some cache.path.location ∧ contents = placeholderContents ∧
      ∃ stem, IsStem stem ∧ l.name? = some (stem ++ ".layout.tsx")
  /-- A new directory is the cache directory or holds it. -/
  newDirectory : ∀ l ∈ m'.dirs, l ∉ m.dirs → l ∈ cache.path.location.withAncestors

variable {faults : Faults} {cache : LayoutCache} {allowed : String → Prop} {s t : Memory}

/-- A memory that has grown has placeholders added to it. -/
theorem Grows.addsPlaceholders (h : Grows faults cache allowed s t) :
    AddsPlaceholders cache s t := by
  obtain ⟨written, hfiles, hwritten⟩ := h.files
  constructor
  case file =>
    intro l contents hl
    rw [hfiles, List.lookup_append, hl, Option.some_or]
  case directory => exact fun l hl => h.mem_dirs_of_mem hl
  case newFile =>
    intro l contents hnone hsome
    rw [hfiles, List.lookup_append, hnone, Option.none_or] at hsome
    obtain ⟨before, after, hsplit, -⟩ := List.lookup_eq_some_iff.1 hsome
    obtain ⟨directory, -, heq, -⟩ := hwritten (l, contents) (by simp [hsplit])
    obtain ⟨rfl, rfl⟩ := Prod.mk.inj heq
    have hname := (LayoutCache.fileName_ne_dots directory).2
    rw [cache.location_filePath, Location.parent?_child, Location.name?_child _ hname]
    exact ⟨rfl, rfl, _, isStem_placeholderName directory, rfl⟩
  case newDirectory => exact fun l hl hnew => (h.mem_dirs hl).resolve_left hnew

end Memory

/-- **A build only ever adds placeholders to its cache.** From any memory, in every order of the
calls of its tasks and whichever calls fail, this is so at every moment of a run, whether the build
has succeeded, has failed or is still going on. -/
theorem Job.Run.only_placeholders_added {faults : Faults} {o : Options} {depth : Nat}
    {m m' : Memory} {events : List Event} {job : Job (List Node)}
    (hrun : Job.Run (Memory.storage.faulty faults) (buildTree o depth) m events job m') :
    Memory.AddsPlaceholders o.cache m m' :=
  hrun.grows.addsPlaceholders

/-- On a memory that takes no more files, the build of the users' routes fails after it has made
the cache directory, and has added nothing else. -/
theorem Job.Run.only_placeholders_added_users : ∃ events job m',
    Job.Run (Memory.storage.faulty fun kind _ =>
      if kind = .write then some (.reported "full") else none) (buildTree {} 4) Memory.users
        events job m' ∧
      job.result? = some (.error (.placeholder (.reported "full"))) ∧
      m'.dirs = Memory.users.dirs ++
        [⟨false, ["app", ".react-router", "layouts"]⟩, ⟨false, ["app", ".react-router"]⟩] ∧
      Memory.AddsPlaceholders (Options.cache {}) Memory.users m' := by
  obtain ⟨events, job, hrun, hresult⟩ := Job.exists_run_sequential
    (Memory.storage.faulty fun kind _ => if kind = .write then some (.reported "full") else none)
    (buildTree {} 4) Memory.users
  have hfailed : (((buildTree {} 4).run (Memory.storage.faulty fun kind _ =>
      if kind = .write then some (.reported "full") else none)).run Memory.users).1 =
        .error (.placeholder (.reported "full")) := by
    decide +kernel
  refine ⟨events, job, _, hrun, hresult.trans (congrArg some hfailed), ?_,
    Job.Run.only_placeholders_added hrun⟩
  decide +kernel

end FileRoutes
