import FileRoutes.Proofs.Guarantee
import FileRoutes.Proofs.Stored
import FileRoutes.Storage.Altered

/-!
# Placeholders among other tasks

Tasks that make sure of placeholders race for the cache directory and, where the names of two
placeholders agree, for their file: each asks whether it is there before it makes it. What they do
to a memory meanwhile is that it **grows**: the cache directory appears with all its ancestors, and
placeholders appear in it. What a task gets to know of its placeholder does not depend on how far
the memory has grown (`Memory.placeholder_congr`), even where chosen calls fail
(`Job.ensures_source`).
-/

namespace FileRoutes

/-! ### Calls that fail -/

/-- Calls that are to fail: whether a call fails, and with which fault, depends on its sort and on
the path as passed to it. -/
abbrev Faults := Call.Kind → Path → Option Fault

namespace Storage

variable {m : Type → Type} [Monad m]

/-- Makes the chosen calls fail before they do anything. -/
def faulty (faults : Faults) (storage : Storage m) : Storage m := fun c =>
  match faults c.kind c.path with
  | some f => pure (.error f)
  | none => storage c

/-- Without faults nothing is altered. -/
theorem faulty_none (storage : Storage m) : faulty (fun _ _ => none) storage = storage := rfl

/-- Calls that are set up to fail are calls that fail. -/
theorem failing_eq_faulty (faults : List Failing) (storage : Storage m) :
    failing faults storage = faulty (fun kind path =>
      if faults.any (fun f => f.kind = kind && (f.path.isNone || f.path = some path)) then
        some (.injected kind path)
      else none) storage := by
  funext c
  simp only [failing, faulty, Failing.concerns]
  split <;> simp_all

end Storage

/-! ### The files of the cache -/

namespace LayoutCache

variable (cache : LayoutCache) {directory other : String}

/-- The name of a placeholder is a name of an entry. -/
theorem isName_fileName (directory : String) : IsName (fileName directory) := by
  constructor
  · intro h
    have hchars := congrArg String.toList h
    simp [fileName] at hchars
  · simpa [fileName] using (isStem_placeholderName directory).slash

/-- The name of a placeholder is a relative path. -/
theorem isAbsolute_fileName (directory : String) :
    Path.isAbsolute ⟨fileName directory⟩ = false :=
  @isAbsolute_pathBelow "" [fileName directory] rfl (by simpa using isName_fileName directory)

/-- The name of a placeholder is longer than one or two dots. -/
theorem fileName_ne_dots (directory : String) :
    fileName directory ≠ "." ∧ fileName directory ≠ ".." := by
  constructor <;>
  · intro h
    have hlength := congrArg (fun text => text.toList.length) h
    simp [fileName] at hlength

/-- A placeholder lies in the cache directory. -/
theorem location_filePath (directory : String) :
    (cache.filePath directory).location = cache.path.location.child (fileName directory) := by
  have hname := isName_fileName directory
  have hdot := (fileName_ne_dots directory).1
  rw [filePath, Path.location_join _ (isAbsolute_fileName directory),
    Path.namesOf_of_not_mem hname.2 hname.1]
  simp [Location.child, hdot]

/-- Placeholders at one location are at one path. -/
theorem filePath_inj
    (h : (cache.filePath directory).location = (cache.filePath other).location) :
    cache.filePath directory = cache.filePath other := by
  rw [location_filePath, location_filePath] at h
  have hnames : fileName directory = fileName other := by
    simpa [Location.child] using h
  rw [filePath, filePath, hnames]

/-- A placeholder does not hold the cache directory. -/
theorem location_filePath_not_mem (directory : String) :
    (cache.filePath directory).location ∉ cache.path.location.withAncestors := by
  intro h
  obtain ⟨-, hbegins⟩ := Location.names_prefix_of_mem_withAncestors h
  rw [location_filePath] at hbegins
  have hlength := hbegins.length_le
  simp only [Location.child, List.length_append, List.length_singleton] at hlength
  omega

end LayoutCache

namespace Memory

/-! ### Growing -/

section

variable (faults : Faults) (cache : LayoutCache) (allowed : String → Prop)

/-- What other tasks may do to a memory: the cache directory appears with all its ancestors, and
placeholders for allowed directories appear in it, each of them unless something is there and no
fault prevents it. -/
structure Grows (s t : Memory) : Prop where
  dirs : t.dirs = s.dirs ∨
    s.contains cache.path = false ∧ faults .makeDirectory cache.path = none ∧
      ∃ made, t.dirs = s.dirs ++ made ∧ (∀ l ∈ made, l ∈ cache.path.location.withAncestors) ∧
        ∀ l ∈ cache.path.location.withAncestors, l ∈ t.dirs
  files : ∃ written, t.files = s.files ++ written ∧ ∀ file ∈ written, ∃ directory,
    allowed directory ∧ file = ((cache.filePath directory).location, placeholderContents) ∧
      s.contains (cache.filePath directory) = false ∧
      faults .write (cache.filePath directory) = none ∧
      t.takesFiles cache.path.location = true

end

variable {faults : Faults} {cache : LayoutCache} {allowed : String → Prop} {s t u : Memory}

namespace Grows

theorem refl (s : Memory) : Grows faults cache allowed s s :=
  ⟨.inl rfl, [], by simp, by simp⟩

/-- The directories of a memory stay where they are in the list of directories. -/
theorem exists_dirs (h : Grows faults cache allowed s t) :
    ∃ made, t.dirs = s.dirs ++ made ∧ ∀ l ∈ made, l ∈ cache.path.location.withAncestors := by
  rcases h.dirs with hdirs | ⟨-, -, made, hdirs, hmade, -⟩
  · exact ⟨[], by simp [hdirs], by simp⟩
  · exact ⟨made, hdirs, hmade⟩

/-- Directories stay. -/
theorem mem_dirs_of_mem (h : Grows faults cache allowed s t) {l : Location} (hl : l ∈ s.dirs) :
    l ∈ t.dirs := by
  obtain ⟨made, hdirs, -⟩ := h.exists_dirs
  simp [hdirs, hl]

/-- A directory was there before, or it was made for the cache. -/
theorem mem_dirs (h : Grows faults cache allowed s t) {l : Location} (hl : l ∈ t.dirs) :
    l ∈ s.dirs ∨ l ∈ cache.path.location.withAncestors := by
  obtain ⟨made, hdirs, hmade⟩ := h.exists_dirs
  rw [hdirs] at hl
  exact (List.mem_append.1 hl).imp id (hmade l)

/-- Files stay. -/
theorem mem_fileLocations_of_mem (h : Grows faults cache allowed s t) {l : Location}
    (hl : l ∈ s.fileLocations) : l ∈ t.fileLocations := by
  obtain ⟨written, hfiles, -⟩ := h.files
  rw [fileLocations, hfiles, List.map_append]
  exact List.mem_append_left _ hl

/-- A file was there before, or it is a placeholder that could be written. -/
theorem mem_fileLocations (h : Grows faults cache allowed s t) {l : Location}
    (hl : l ∈ t.fileLocations) : l ∈ s.fileLocations ∨ ∃ directory,
      l = (cache.filePath directory).location ∧ faults .write (cache.filePath directory) = none ∧
        t.takesFiles cache.path.location = true ∧ (l, placeholderContents) ∈ t.files := by
  obtain ⟨written, hfiles, hwritten⟩ := h.files
  rw [fileLocations, hfiles, List.map_append] at hl
  refine (List.mem_append.1 hl).imp id fun hnew => ?_
  obtain ⟨file, hfile, rfl⟩ := List.mem_map.1 hnew
  obtain ⟨d, -, rfl, -, hwrite, htakes⟩ := hwritten file hfile
  exact ⟨d, rfl, hwrite, htakes, hfiles ▸ List.mem_append_right _ hfile⟩

/-- What is stored stays stored. -/
theorem stores (h : Grows faults cache allowed s t) {l : Location} (hl : s.Stores l) :
    t.Stores l :=
  hl.imp h.mem_dirs_of_mem h.mem_fileLocations_of_mem

theorem contains (h : Grows faults cache allowed s t) {p : Path} (hp : s.contains p = true) :
    t.contains p = true :=
  contains_iff.2 (h.stores (contains_iff.1 hp))

theorem contains_eq_false (h : Grows faults cache allowed s t) {p : Path}
    (hp : t.contains p = false) : s.contains p = false := by
  by_contra hs
  simp [h.contains (by simpa using hs)] at hp

/-- What takes files keeps taking them. -/
theorem takesFiles (h : Grows faults cache allowed s t) {l : Location}
    (hl : s.takesFiles l = true) : t.takesFiles l = true := by
  obtain ⟨made, hdirs, -⟩ := h.exists_dirs
  simp only [Memory.takesFiles, Bool.or_eq_true, isDirectory_iff, hdirs, List.mem_append] at hl ⊢
  exact hl.imp id Or.inl

theorem trans (h : Grows faults cache allowed s t) (k : Grows faults cache allowed t u) :
    Grows faults cache allowed s u := by
  refine ⟨?_, ?_⟩
  · rcases k.dirs with hu | ⟨ht, hfault, made, hu, hmade, hall⟩
    · rw [hu]
      exact h.dirs
    · obtain ⟨before, hbefore, hmem⟩ := h.exists_dirs
      -- what is missing later was missing before
      refine .inr ⟨h.contains_eq_false ht, hfault, before ++ made, ?_, ?_, hall⟩
      · rw [hu, hbefore, List.append_assoc]
      · exact List.forall_mem_append.2 ⟨hmem, hmade⟩
  · obtain ⟨first, hfirst, hfirstmem⟩ := h.files
    obtain ⟨rest, hrest, hrestmem⟩ := k.files
    refine ⟨first ++ rest, by rw [hrest, hfirst, List.append_assoc],
      List.forall_mem_append.2 ⟨fun file hfile => ?_, fun file hfile => ?_⟩⟩
    · obtain ⟨d, hd, heq, hs, hwrite, htakes⟩ := hfirstmem file hfile
      exact ⟨d, hd, heq, hs, hwrite, k.takesFiles htakes⟩
    · obtain ⟨d, hd, heq, ht, hwrite, htakes⟩ := hrestmem file hfile
      exact ⟨d, hd, heq, h.contains_eq_false ht, hwrite, htakes⟩

instance : IsPreorder Memory (Grows faults cache allowed) where
  refl := refl
  trans _ _ _ := trans

/-- Once something is at the path of the cache, no directory is made any more. -/
theorem dirs_eq (h : Grows faults cache allowed s t) (hs : s.contains cache.path = true) :
    t.dirs = s.dirs := by
  rcases h.dirs with hdirs | ⟨hnone, -⟩
  · exact hdirs
  · simp [hs] at hnone

/-- If something appears at the path of the cache, the cache was made as a whole. -/
theorem of_contains_path (h : Grows faults cache allowed s t)
    (hs : s.contains cache.path = false) (ht : t.contains cache.path = true) :
    faults .makeDirectory cache.path = none ∧ t.takesFiles cache.path.location = true ∧
      ∀ l ∈ cache.path.location.withAncestors, l ∈ t.dirs := by
  -- no placeholder lies at the path of the cache itself, so a directory has appeared there
  have hdirectory : cache.path.location ∈ t.dirs := by
    refine (contains_iff.1 ht).resolve_right fun hfile => ?_
    rcases h.mem_fileLocations hfile with hold | ⟨d, hpath, -⟩
    · exact absurd (contains_iff.2 (.inr hold)) (by simp [hs])
    · rw [cache.location_filePath] at hpath
      simpa [Location.child] using congrArg (fun l => l.names.length) hpath
  have htakes : t.takesFiles cache.path.location = true := by
    simp [Memory.takesFiles, isDirectory_iff, hdirectory]
  rcases h.dirs with hdirs | ⟨-, hfault, made, -, -, hall⟩
  · rw [hdirs] at hdirectory
    exact absurd (contains_iff.2 (.inl hdirectory)) (by simp [hs])
  · exact ⟨hfault, htakes, hall⟩

/-- If a placeholder appears, it could be written. -/
theorem of_contains_filePath (h : Grows faults cache allowed s t) {directory : String}
    (hs : s.contains (cache.filePath directory) = false)
    (ht : t.contains (cache.filePath directory) = true) :
    faults .write (cache.filePath directory) = none ∧ t.takesFiles cache.path.location = true ∧
      ((cache.filePath directory).location, placeholderContents) ∈ t.files := by
  rcases contains_iff.1 ht with hdirectory | hfile
  · rcases h.mem_dirs hdirectory with hold | hnew
    · exact absurd (contains_iff.2 (.inl hold)) (by simp [hs])
    -- directories are made for the cache only, and a placeholder holds none of these
    · exact absurd hnew (cache.location_filePath_not_mem directory)
  · rcases h.mem_fileLocations hfile with hold | ⟨d, hpath, hwrite, htakes, hmem⟩
    · exact absurd (contains_iff.2 (.inr hold)) (by simp [hs])
    · exact ⟨cache.filePath_inj hpath ▸ hwrite, htakes, hmem⟩

end Grows

/-! ### What a task does -/

/-- A file that is new is stored after all others. -/
theorem setContents_of_not_mem {l : Location} {contents : String}
    {files : List (Location × String)} (h : l ∉ files.map Prod.fst) :
    setContents l contents files = files ++ [(l, contents)] := by
  induction files with
  | nil => rfl
  | cons file rest ih =>
    rw [List.map_cons, List.mem_cons, not_or] at h
    rw [setContents, if_neg (Ne.symm h.1), ih h.2, List.cons_append]

/-- A file that has its contents already stays as it is. -/
theorem setContents_eq_self {l : Location} {contents : String}
    {files : List (Location × String)} (hmem : l ∈ files.map Prod.fst)
    (h : ∀ file ∈ files, file.1 = l → file.2 = contents) :
    setContents l contents files = files := by
  induction files with
  | nil => simp at hmem
  | cons file rest ih =>
    obtain ⟨hfile, hrest⟩ := List.forall_mem_cons.1 h
    rw [setContents]
    split
    · next heq =>
      rw [← heq, ← hfile heq]
    · next hne =>
      rw [List.map_cons, List.mem_cons] at hmem
      rw [ih (hmem.resolve_left (Ne.symm hne)) hrest]

/-- Making the cache directory after it was found missing lets the memory grow. -/
theorem grows_insertDirectory (h : Grows faults cache allowed s t)
    (hs : s.contains cache.path = false) (hfault : faults .makeDirectory cache.path = none) :
    Grows faults cache allowed t (t.insertDirectory cache.path) ∧
      (t.insertDirectory cache.path).takesFiles cache.path.location = true := by
  obtain ⟨made, hdirs, -, hmade⟩ := t.dirs_insertDirectoryAt cache.path.location
  have hmem : ∀ l ∈ cache.path.location.withAncestors,
      l ∈ (t.insertDirectory cache.path).dirs := fun l hl =>
    isDirectory_iff.1 (isDirectory_insertDirectoryAt_iff.2 (.inl hl))
  refine ⟨⟨?_, [], by simp [insertDirectory], by simp⟩, ?_⟩
  · cases ht : t.contains cache.path with
    | true =>
      -- another task has made the cache meanwhile, and nothing is left to make
      obtain ⟨-, -, hall⟩ := h.of_contains_path hs ht
      obtain rfl : made = [] := List.eq_nil_iff_forall_not_mem.2 fun l hl =>
        ((hmade l).1 hl).2 (hall l ((hmade l).1 hl).1)
      exact .inl (hdirs.trans (List.append_nil _))
    | false => exact .inr ⟨rfl, hfault, made, hdirs, fun l hl => ((hmade l).1 hl).1, hmem⟩
  · cases hempty : cache.path.location.isEmpty with
    | true => simp [takesFiles, hempty]
    | false =>
      simp [takesFiles, isDirectory_iff, hmem _ (Location.self_mem_withAncestors hempty)]

/-- Writing a placeholder that another task has written meanwhile changes nothing. -/
theorem Grows.setContents_filePath (h : Grows faults cache allowed s t) {directory : String}
    (hs : s.contains (cache.filePath directory) = false)
    (ht : t.contains (cache.filePath directory) = true) :
    setContents (cache.filePath directory).location placeholderContents t.files = t.files := by
  obtain ⟨written, hfiles, hwritten⟩ := h.files
  obtain ⟨-, -, hmem⟩ := h.of_contains_filePath hs ht
  have hkey : (cache.filePath directory).location ∈ t.files.map Prod.fst :=
    List.mem_map.2 ⟨_, hmem, rfl⟩
  refine setContents_eq_self hkey fun file hfile hpath => ?_
  rw [hfiles] at hfile
  rcases List.mem_append.1 hfile with hold | hnew
  · have hstored : s.Stores (cache.filePath directory).location :=
      .inr (hpath ▸ List.mem_map_of_mem hold)
    exact absurd (contains_iff.2 hstored) (by simp [hs])
  · -- whatever was written meanwhile is a placeholder, and all have the same contents
    obtain ⟨d, -, rfl, -⟩ := hwritten file hnew
    rfl

/-- Writing a placeholder after it was found missing lets the memory grow. -/
theorem grows_write (h : Grows faults cache allowed s t) {directory : String}
    (hallowed : allowed directory) (hs : s.contains (cache.filePath directory) = false)
    (hfault : faults .write (cache.filePath directory) = none)
    (htakes : t.takesFiles cache.path.location = true) :
    ∃ t', t.write (cache.filePath directory) placeholderContents = .ok t' ∧
      Grows faults cache allowed t t' ∧ t'.contains (cache.filePath directory) = true := by
  have hparent : (cache.filePath directory).location.parent? = some cache.path.location := by
    rw [cache.location_filePath, Location.parent?_child]
  obtain ⟨t', hwrite⟩ : ∃ t', t.write (cache.filePath directory) placeholderContents = .ok t' :=
    ⟨_, write_eq_ok_iff.2 ⟨⟨_, hparent, htakes⟩, rfl⟩⟩
  obtain ⟨hdirs', hfiles'⟩ : t'.dirs = t.dirs ∧ t'.files =
      setContents (cache.filePath directory).location placeholderContents t.files := by
    obtain ⟨-, rfl⟩ := write_eq_ok_iff.1 hwrite
    exact ⟨rfl, rfl⟩
  refine ⟨t', hwrite, ⟨.inl hdirs', ?_⟩, ?_⟩
  · rw [hfiles']
    cases ht : t.contains (cache.filePath directory) with
    | true =>
      exact ⟨[], by rw [h.setContents_filePath hs ht, List.append_nil], by simp⟩
    | false =>
      have hnew : (cache.filePath directory).location ∉ t.files.map Prod.fst := fun hmem =>
        absurd (contains_iff.2 (.inr hmem)) (by simp [ht])
      have htakes' : t'.takesFiles cache.path.location = true := by
        simpa only [takesFiles, isDirectory, hdirs'] using htakes
      refine ⟨_, setContents_of_not_mem hnew, fun file hfile => ?_⟩
      exact ⟨directory, hallowed, List.mem_singleton.1 hfile, ht, hfault, htakes'⟩
  · rw [contains_iff]
    refine .inr ?_
    rw [fileLocations, hfiles']
    exact mem_map_fst_setContents_iff.2 (.inl rfl)

/-- A placeholder that is there lies in a directory that takes files. -/
theorem WellFormed.takesFiles_of_contains (h : s.WellFormed) {directory : String}
    (hthere : s.contains (cache.filePath directory) = true) :
    s.takesFiles cache.path.location = true := by
  have hparent : (cache.filePath directory).location.parent? = some cache.path.location := by
    rw [cache.location_filePath, Location.parent?_child]
  simpa [takesFiles, isDirectory_iff] using h.parent _ (contains_iff.1 hthere) _ hparent

/-- A question is answered by what the memory contains. -/
theorem answer_probe_of_contains {p : Path} {found : Bool} (h : s.contains p = found) :
    storage.answer (.probe p) s = (.ok found, s) := by
  rw [← h]
  rfl

/-- A placeholder cannot be written where the cache takes no files. -/
theorem write_filePath_eq_error (directory contents : String)
    (h : s.takesFiles cache.path.location = false) :
    s.write (cache.filePath directory) contents =
      .error (.noParent (cache.filePath directory).location) := by
  have hparent : (cache.filePath directory).location.parent? = some cache.path.location := by
    rw [cache.location_filePath, Location.parent?_child]
  simp only [write, hparent, h, Bool.false_eq_true, if_false]

/-! ### What a task gets to know -/

section

variable (faults : Faults) (cache : LayoutCache)

/-- What a task is told of the file of its placeholder, where the cache takes files or not. -/
def placeholderFile (takes : Bool) (s : Memory) (directory : String) : Except Fault String :=
  match faults .probe (cache.filePath directory) with
  | some f => .error f
  | none =>
    if s.contains (cache.filePath directory) then .ok (cache.reference directory)
    else
      match faults .write (cache.filePath directory) with
      | some f => .error (.placeholder f)
      | none =>
        if takes then .ok (cache.reference directory)
        else .error (.placeholder (.noParent (cache.filePath directory).location))

/-- What a task is told of its placeholder: the cache directory is made first if need be. -/
def placeholder (s : Memory) (directory : String) : Except Fault String :=
  match faults .probe cache.path with
  | some f => .error f
  | none =>
    if s.contains cache.path then
      placeholderFile faults cache (s.takesFiles cache.path.location) s directory
    else
      match faults .makeDirectory cache.path with
      | some f => .error (.layoutCache f)
      | none => placeholderFile faults cache true s directory

end

/-- Of the file of a placeholder a task is told the same in a memory that has grown. -/
private theorem placeholderFile_congr (h : Grows faults cache allowed s t) {takes : Bool}
    (htakes : t.takesFiles cache.path.location = true → takes = true) (directory : String) :
    placeholderFile faults cache takes s directory =
      placeholderFile faults cache takes t directory := by
  unfold placeholderFile
  cases hs : s.contains (cache.filePath directory) with
  | true => simp [h.contains hs]
  | false =>
    cases ht : t.contains (cache.filePath directory) with
    | false => rfl
    | true =>
      obtain ⟨hwrite, hcache, -⟩ := h.of_contains_filePath hs ht
      simp [hwrite, htakes hcache]

/-- **What a task is told of its placeholder does not depend on how far the memory has grown.** -/
theorem placeholder_congr (h : Grows faults cache allowed s t) (directory : String) :
    placeholder faults cache s directory = placeholder faults cache t directory := by
  unfold placeholder
  cases hs : s.contains cache.path with
  | true =>
    have htakes : t.takesFiles cache.path.location = s.takesFiles cache.path.location := by
      simp [takesFiles, isDirectory, h.dirs_eq hs]
    rw [h.contains hs, htakes, placeholderFile_congr h (fun ht => htakes ▸ ht)]
    simp only [if_true]
  | false =>
    cases ht : t.contains cache.path with
    | true =>
      obtain ⟨hfault, htakes, -⟩ := h.of_contains_path hs ht
      simp only [hfault, htakes, if_true, Bool.false_eq_true, if_false]
      rw [placeholderFile_congr h fun _ => rfl]
    | false =>
      rw [placeholderFile_congr h fun _ => rfl]
      simp only [Bool.false_eq_true, if_false]

/-- A call is answered as ever, unless it is to fail. -/
theorem answer_faulty (c : Call) (s : Memory) :
    (storage.faulty faults).answer c s =
      match faults c.kind c.path with
      | some f => (.error f, s)
      | none => storage.answer c s := by
  unfold Storage.answer Storage.faulty
  cases faults c.kind c.path <;> rfl

/-- The answer to a listing that may fail. -/
theorem answer_list (p : Path) (s : Memory) :
    (storage.faulty faults).answer (.list p) s =
      (match faults .list p with
        | some f => .error f
        | none => s.list p, s) := by
  rw [answer_faulty]
  simp only [Call.kind, Call.path]
  cases faults .list p <;> rfl

/-- The answer to a question that may fail. -/
theorem answer_probe (p : Path) (s : Memory) :
    (storage.faulty faults).answer (.probe p) s =
      (match faults .probe p with
        | some f => .error f
        | none => .ok (s.contains p), s) := by
  rw [answer_faulty]
  simp only [Call.kind, Call.path]
  cases faults .probe p <;> rfl

/-- The answer to a write that may fail. -/
theorem answer_write (p : Path) (contents : String) (s : Memory) :
    (storage.faulty faults).answer (.write p contents) s =
      match faults .write p with
      | some f => (.error f, s)
      | none =>
        match s.write p contents with
        | .ok written => (.ok (), written)
        | .error f => (.error f, s) := by
  rw [answer_faulty]
  simp only [Call.kind, Call.path]
  cases faults .write p <;> rfl

/-- The answer to the making of a directory that may fail. -/
theorem answer_makeDirectory (p : Path) (s : Memory) :
    (storage.faulty faults).answer (.makeDirectory p) s =
      match faults .makeDirectory p with
      | some f => (.error f, s)
      | none => (.ok (), s.insertDirectory p) := by
  rw [answer_faulty]
  simp only [Call.kind, Call.path]
  cases faults .makeDirectory p <;> rfl

/-- The storage answers as a memory does where chosen calls fail, but it may list in its own way. -/
def ListsApart (faults : Faults) (st : Storage (StateM Memory)) : Prop :=
  ∀ c s, c.kind ≠ .list → st.answer c s = (storage.faulty faults).answer c s

/-- A memory where chosen calls fail lists as any other memory. -/
theorem listsApart_faulty (faults : Faults) : ListsApart faults (storage.faulty faults) :=
  fun _ _ _ => rfl

namespace ListsApart

variable {st : Storage (StateM Memory)}

theorem answer_probe (h : ListsApart faults st) (p : Path) (s : Memory) :
    st.answer (.probe p) s = (storage.faulty faults).answer (.probe p) s :=
  h _ s (by simp [Call.kind])

theorem answer_write (h : ListsApart faults st) (p : Path) (contents : String) (s : Memory) :
    st.answer (.write p contents) s = (storage.faulty faults).answer (.write p contents) s :=
  h _ s (by simp [Call.kind])

theorem answer_makeDirectory (h : ListsApart faults st) (p : Path) (s : Memory) :
    st.answer (.makeDirectory p) s = (storage.faulty faults).answer (.makeDirectory p) s :=
  h _ s (by simp [Call.kind])

end ListsApart

/-- The write of a placeholder that was found missing is answered as it can be told beforehand. -/
theorem exists_answer_write (h : Grows faults cache allowed s t) {directory : String}
    {takes : Bool} (hallowed : allowed directory)
    (hprobe : faults .probe (cache.filePath directory) = none)
    (hs : s.contains (cache.filePath directory) = false)
    (htakes : t.takesFiles cache.path.location = takes) :
    ∃ reply t', (storage.faulty faults).answer
        (.write (cache.filePath directory) placeholderContents) t = (reply, t') ∧
      Grows faults cache allowed t t' ∧
      placeholderFile faults cache takes s directory =
        (reply.mapError Fault.placeholder).map (fun _ => cache.reference directory) ∧
      ∀ file, placeholderFile faults cache takes s directory = .ok file →
        t'.contains (cache.filePath directory) = true := by
  rw [answer_write]
  cases hwrite : faults .write (cache.filePath directory) with
  | some f =>
    have htold : placeholderFile faults cache takes s directory = .error (.placeholder f) := by
      simp [placeholderFile, hprobe, hs, hwrite]
    exact ⟨.error f, t, rfl, .refl t, htold, by simp [htold]⟩
  | none =>
    cases takes with
    | false =>
      have htold : placeholderFile faults cache false s directory =
          .error (.placeholder (.noParent (cache.filePath directory).location)) := by
        simp [placeholderFile, hprobe, hs, hwrite]
      rw [write_filePath_eq_error _ _ htakes]
      exact ⟨_, t, rfl, .refl t, htold, by simp [htold]⟩
    | true =>
      have htold : placeholderFile faults cache true s directory =
          .ok (cache.reference directory) := by
        simp [placeholderFile, hprobe, hs, hwrite]
      obtain ⟨t', hwritten, hgrows, hmem⟩ := grows_write h hallowed hs hwrite htakes
      rw [hwritten]
      exact ⟨.ok (), t', rfl, hgrows, htold, fun _ _ => hmem⟩

end Memory

/-! ### Making sure of a placeholder -/

namespace Job

open Memory

variable {α : Type} {faults : Faults} {st : Storage (StateM Memory)} {cache : LayoutCache}
  {allowed : String → Prop} {s : Memory} {directory : String} {next : Except Fault String → Job α}
  {post : Except Fault α → Memory → Prop}

/-- The file of a placeholder is made sure of, whatever other tasks do: what follows is told what
can be told beforehand, and a placeholder that it is given is there. -/
private theorem ensures_ensureFile (hst : ListsApart faults st) {takes : Bool}
    (hallowed : allowed directory)
    (htakes : ∀ t, Grows faults cache allowed s t →
      t.takesFiles cache.path.location = takes)
    (hnext : ∀ t, Grows faults cache allowed s t →
      (∀ file, placeholderFile faults cache takes s directory = .ok file →
        t.contains (cache.filePath directory) = true) →
      Ensures st (Grows faults cache allowed)
        (next (placeholderFile faults cache takes s directory)) t post) :
    Ensures st (Grows faults cache allowed) (cache.ensureFile directory next)
      s post := by
  refine .call (fun t _ => ?_) fun t ht => ?_
  · rw [hst.answer_probe, answer_probe]
    exact .refl t
  rw [hst.answer_probe, answer_probe]
  cases hprobe : faults .probe (cache.filePath directory) with
  | some f =>
    have htold : placeholderFile faults cache takes s directory = .error f := by
      simp [placeholderFile, hprobe]
    rw [htold] at hnext
    exact hnext t ht fun _ hok => by cases hok
  | none =>
    cases hcontains : t.contains (cache.filePath directory) with
    | true =>
      have htold : placeholderFile faults cache takes s directory =
          .ok (cache.reference directory) := by
        rw [placeholderFile_congr ht fun h => (htakes t ht).symm.trans h]
        simp [placeholderFile, hprobe, hcontains]
      rw [htold] at hnext
      exact hnext t ht fun _ _ => hcontains
    | false =>
      have hs := ht.contains_eq_false hcontains
      -- by the time of the write another task may have written the placeholder
      have hanswer := fun u (hu : Grows faults cache allowed t u) =>
        exists_answer_write (ht.trans hu) hallowed hprobe hs (htakes u (ht.trans hu))
      refine .call (fun u hu => ?_) fun u hu => ?_
      · obtain ⟨reply, u', heq, hgrows, -⟩ := hanswer u hu
        rw [hst.answer_write, heq]
        exact hgrows
      · obtain ⟨reply, u', heq, hgrows, htold, hmem⟩ := hanswer u hu
        have hrest := hnext u' (ht.trans (hu.trans hgrows)) hmem
        rw [htold] at hrest
        rw [hst.answer_write, heq]
        cases reply <;> exact hrest

/-- **A placeholder is made sure of**, whatever other tasks do: what follows is told what could be
told beforehand, and a placeholder that it is given is there. -/
theorem ensures_source (hst : ListsApart faults st) (hallowed : allowed directory)
    (hnext : ∀ t, Grows faults cache allowed s t →
      (∀ file, placeholder faults cache s directory = .ok file →
        t.contains (cache.filePath directory) = true) →
      Ensures st (Grows faults cache allowed)
        (next (placeholder faults cache s directory)) t post) :
    Ensures st (Grows faults cache allowed) (cache.source directory next)
      s post := by
  refine .call (fun t _ => ?_) fun t ht => ?_
  · rw [hst.answer_probe, answer_probe]
    exact .refl t
  rw [hst.answer_probe, answer_probe]
  cases hprobe : faults .probe cache.path with
  | some f =>
    have htold : placeholder faults cache s directory = .error f := by
      simp [placeholder, hprobe]
    rw [htold] at hnext
    exact hnext t ht fun _ hok => by cases hok
  | none =>
    cases hcontains : t.contains cache.path with
    | true =>
      have htold : placeholder faults cache s directory =
          placeholderFile faults cache (t.takesFiles cache.path.location) t directory := by
        rw [placeholder_congr ht]
        simp [placeholder, hprobe, hcontains]
      rw [htold] at hnext
      refine ensures_ensureFile hst hallowed (fun u hu => ?_) fun u hu => hnext u (ht.trans hu)
      simp [takesFiles, isDirectory, hu.dirs_eq hcontains]
    | false =>
      have hs := ht.contains_eq_false hcontains
      cases hmake : faults .makeDirectory cache.path with
      | some f =>
        have htold : placeholder faults cache s directory = .error (.layoutCache f) := by
          simp [placeholder, hprobe, hs, hmake]
        rw [htold] at hnext
        refine .call (fun u _ => ?_) fun u hu => ?_
        · simp only [hst.answer_makeDirectory, answer_makeDirectory, hmake]
          exact .refl u
        · simp only [hst.answer_makeDirectory, answer_makeDirectory, hmake]
          exact hnext u (ht.trans hu) fun _ hok => by cases hok
      | none =>
        have htold : ∀ u, Grows faults cache allowed s u → placeholder faults cache s directory =
            placeholderFile faults cache true u directory := fun u hu => by
          rw [← placeholderFile_congr hu fun _ => rfl]
          simp [placeholder, hprobe, hs, hmake]
        refine .call (fun u hu => ?_) fun u hu => ?_
        · simp only [hst.answer_makeDirectory, answer_makeDirectory, hmake]
          exact (grows_insertDirectory hu hcontains hmake).1
        · simp only [hst.answer_makeDirectory, answer_makeDirectory, hmake]
          obtain ⟨hgrows, htakes⟩ := grows_insertDirectory hu hcontains hmake
          have hmade := ht.trans (hu.trans hgrows)
          rw [htold _ hmade] at hnext
          exact ensures_ensureFile hst hallowed (fun v hv => hv.takesFiles htakes) fun v hv =>
            hnext v (hmade.trans hv)

end Job

end FileRoutes
