import FileRoutes.Proofs.DiskTrees
import FileRoutes.Proofs.Histories
import FileRoutes.Proofs.Repetition

/-!
# Locations that are both a file and a directory

A memory keeps files and directories apart and looks at neither when it puts in the other, so that a
location may be both (`Memory.Clash`). What a memory remembers of its history tells where: at a
location to which some deed has given contents, and of which some deed has made a directory. A
directory lists a name twice exactly if what it leads to is both
(`Memory.WellFormed.nodup_names_iff`).

A disk holds one or the other, so it does not take such a tree. Putting a tree on a disk makes its
directories first, and after that its files (`Memory.calls`). In an empty directory the first part
always succeeds, whatever order the directories come in, and leaves just the directories of the
memory (`Memory.WellFormed.grantsAll_makeDirectories`); then each file is written if it is not one
of them (`Memory.WellFormed.grantsAll_writes`).

Main result: `Memory.clash_history`, and `Memory.page_and_directory` for a location that is both.
-/

namespace FileRoutes

/-- The calls succeed, made one after the other. -/
def Storage.grantsAll {σ : Type} (storage : Storage (StateM σ)) (s : σ) : List Call → Bool
  | [] => true
  | c :: rest => (storage.answer c s).1.isOk && storage.grantsAll (storage.answer c s).2 rest

/-- There is nothing below a place. -/
def Disk.IsBare (d : Disk) (place : List String) : Prop :=
  ∀ names, names ≠ [] → place ++ names ∉ d.dirs ∧ place ++ names ∉ d.filePlaces

/-- A disk with an empty working directory. -/
def Disk.home : Disk where
  here := ["home"]
  dirs := [["home"]]

theorem Disk.isBare_home : home.IsBare (home.base false) := by
  intro names hnames
  simp [home, base, filePlaces, hnames]

namespace Memory

/-- The location is that of a file and of a directory. -/
def Clash (m : Memory) (l : Location) : Prop :=
  m.isFile l = true ∧ m.isDirectory l = true

instance (m : Memory) (l : Location) : Decidable (m.Clash l) :=
  inferInstanceAs (Decidable (_ ∧ _))

variable {m : Memory} {absolute : Bool}

/-- No location is both if none of the files is. -/
theorem forall_not_clash_iff :
    (∀ l, ¬ m.Clash l) ↔ ∀ l ∈ m.fileLocations, l ∉ m.dirs := by
  simp only [Clash, isFile_iff, isDirectory_iff, not_and]

/-! ### Listings -/

/-- **A directory lists every name once** if and only if nothing directly in it is both a file and a
directory. -/
theorem WellFormed.nodup_names_iff (h : m.WellFormed) {path : Path} {listing : List Listed}
    (hlist : m.list path = .ok listing) :
    (listing.map Listed.name).Nodup ↔
      ∀ name, IsOrdinary name → ¬ m.Clash (path.join name).location := by
  constructor
  · rintro hnodup name hname ⟨hfile, hdirectory⟩
    have hasDirectory := (mem_list_iff_of_isOrdinary hlist hname true).2 hdirectory
    have hasFile := (mem_list_iff_of_isOrdinary hlist hname false).2 hfile
    cases List.inj_on_of_nodup_map hnodup hasDirectory hasFile rfl
  · intro hclash
    refine (h.lawful_list hlist).nodup.map_on ?_
    rintro ⟨name, isDirectory⟩ he ⟨_, isDirectory'⟩ he' rfl
    have hname := h.isOrdinary_of_mem_list hlist he
    have hstored := (mem_list_iff_of_isOrdinary hlist hname isDirectory).1 he
    have hstored' := (mem_list_iff_of_isOrdinary hlist hname isDirectory').1 he'
    cases isDirectory <;> cases isDirectory'
    · rfl
    · exact absurd ⟨hstored, hstored'⟩ (hclash name hname)
    · exact absurd ⟨hstored', hstored⟩ (hclash name hname)
    · rfl

/-! ### Trees on a disk -/

/-- The calls that put the tree of a memory on a disk: its directories are made, and then its files
are written. -/
def calls (m : Memory) : List Call :=
  m.dirs.map (fun l => .makeDirectory ⟨l.text⟩) ++
    m.files.map fun file => .write ⟨file.1.text⟩ file.2

/-- What is stored are locations that a disk takes, all of them absolute or none, and the files have
names. -/
structure FitsDisk (m : Memory) (absolute : Bool) : Prop where
  absolute_eq : ∀ l, m.Stores l → l.absolute = absolute
  fits : ∀ l, m.Stores l → l.Fits
  names_ne : ∀ l ∈ m.fileLocations, l.names ≠ []

instance (m : Memory) (absolute : Bool) : Decidable (m.FitsDisk absolute) :=
  decidable_of_iff
    ((∀ l ∈ m.dirs ++ m.fileLocations, l.absolute = absolute ∧ l.Fits) ∧
      ∀ l ∈ m.fileLocations, l.names ≠ [])
    ⟨fun h => ⟨fun l hl => (h.1 l (List.mem_append.2 hl)).1,
      fun l hl => (h.1 l (List.mem_append.2 hl)).2, h.2⟩,
    fun h => ⟨fun l hl => ⟨h.absolute_eq l (List.mem_append.1 hl),
      h.fits l (List.mem_append.1 hl)⟩, h.names_ne⟩⟩

/-- What holds something stored, but for the empty location, is a stored directory. -/
theorem WellFormed.take_mem_dirs (h : m.WellFormed) {l : Location} (hl : m.Stores l) {n : Nat}
    (hpos : 0 < n) (hn : n < l.names.length) : ⟨l.absolute, l.names.take n⟩ ∈ m.dirs := by
  have hne : l.names ≠ [] := List.ne_nil_of_length_pos (by omega)
  have hparent : l.parent? = some ⟨l.absolute, l.names.dropLast⟩ := by
    simp [Location.parent?, hne]
  refine h.mem_dirs_of_mem_withAncestors_parent hl hparent (Location.mem_withAncestors_iff.2 ?_)
  have hsome : l.names.take n ≠ [] := List.ne_nil_of_length_pos (by simp; omega)
  refine ⟨by simp [Location.isEmpty, hsome], rfl, n, by simp; omega, ?_⟩
  rw [List.dropLast_eq_take, List.take_take, Nat.min_eq_left (by omega)]

/-- What is on the way to a stored directory are stored directories. -/
theorem WellFormed.mem_dirs_of_mem (h : m.WellFormed) {l : Location} (hl : l ∈ m.dirs) {n : Nat}
    (hpos : 0 < n) (hn : n ≤ l.names.length) : ⟨l.absolute, l.names.take n⟩ ∈ m.dirs := by
  rcases hn.lt_or_eq with hn | rfl
  · exact h.take_mem_dirs (.inl hl) hpos hn
  · rwa [List.take_length]

/-- **The directories of a memory are made**, in any order, where there is no file. Nothing else is
gained. -/
theorem WellFormed.grantsAll_makeDirectories (h : m.WellFormed) (hm : m.FitsDisk absolute)
    {ls : List Location} (hls : ∀ l ∈ ls, l ∈ m.dirs) {d : Disk}
    (hfree : ∀ names, names ≠ [] → d.base absolute ++ names ∉ d.filePlaces) (rest : List Call) :
    ∃ made, Disk.storage.grantsAll d (ls.map (fun l => .makeDirectory ⟨l.text⟩) ++ rest) =
        Disk.storage.grantsAll made rest ∧
      d.Gains made fun place =>
        ∃ l ∈ ls, Disk.Passes (d.base absolute) l.names l.names.length place := by
  induction ls generalizing d with
  | nil => exact ⟨d, rfl, (Disk.Gains.nothing d).congr fun place => by simp⟩
  | cons l others ih =>
    obtain ⟨hl, hothers⟩ := List.forall_mem_cons.1 hls
    have hside := hm.absolute_eq l (.inl hl)
    have hbefore : ∀ k, 0 < k → k ≤ l.names.length →
        Location.Fits ⟨l.absolute, l.names.take k⟩ :=
      fun k hk hkn => hm.fits _ (.inl (h.mem_dirs_of_mem hl hk hkn))
    obtain ⟨made, hmade, hgains⟩ := Disk.exists_makeDirectory (d := d) (h.lawful l (.inl hl))
      (h.isEmpty_of_mem_dirs l hl) hbefore (by
        rintro _ ⟨k, hk, hkn, rfl⟩
        rw [hside]
        exact hfree _ (List.ne_nil_of_length_pos (by simp; omega)))
    rw [hside] at hgains
    obtain ⟨done, hdone, hmore⟩ := ih hothers (d := made) fun names hnames => by
      rw [hgains.base_eq, hgains.filePlaces_eq]
      exact hfree names hnames
    refine ⟨done, ?_, ?_⟩
    · rw [← hdone, List.map_cons, List.cons_append, Storage.grantsAll, Disk.answer_makeDirectory,
        hmade]
      rfl
    · rw [hgains.base_eq] at hmore
      exact (hgains.trans hmore).congr fun place => by simp

/-- The files of a memory are written where its directories are, if none of them is one. -/
theorem WellFormed.grantsAll_writes (h : m.WellFormed) (hm : m.FitsDisk absolute)
    {files : List (Location × String)} (hfiles : ∀ file ∈ files, file.1 ∈ m.fileLocations)
    {d : Disk} (hdirs : ∀ names, names ≠ [] →
      (d.base absolute ++ names ∈ d.dirs ↔ ⟨absolute, names⟩ ∈ m.dirs)) :
    Disk.storage.grantsAll d (files.map fun file => .write ⟨file.1.text⟩ file.2) = true ↔
      ∀ file ∈ files, file.1 ∉ m.dirs := by
  induction files generalizing d with
  | nil => simp [Storage.grantsAll]
  | cons file others ih =>
    obtain ⟨hfile, hothers⟩ := List.forall_mem_cons.1 hfiles
    obtain ⟨l, contents⟩ := file
    have hstored : m.Stores l := .inr hfile
    have hne := hm.names_ne l hfile
    obtain rfl := hm.absolute_eq l hstored
    have hway : ∀ n, 0 < n → n < l.names.length →
        d.IsDir (d.base l.absolute ++ l.names.take n) := fun n hn hlength =>
      .inr ((hdirs _ (List.ne_nil_of_length_pos (by simp; omega))).2
        (h.take_mem_dirs hstored hn hlength))
    have hdir : d.IsDir (d.base l.absolute ++ l.names) ↔ l ∈ m.dirs := by
      rw [Disk.IsDir, hdirs _ hne]
      simp [hne]
    rw [List.map_cons, Storage.grantsAll, List.forall_mem_cons, Disk.answer_write]
    by_cases hclash : l ∈ m.dirs
    · rw [Disk.write_of_isDir (h.lawful l hstored) (hm.fits l hstored) hne hway (hdir.2 hclash)]
      simp [Disk.settle, Except.isOk, Except.toBool, hclash]
    · rw [Disk.write_of_not_isDir (h.lawful l hstored) (hm.fits l hstored) hne hway
        (mt hdir.1 hclash)]
      -- the directories are as they were, so the other files are judged by them as well
      have hrest := ih hothers (d := { d with
        files := Disk.setContents (d.base l.absolute ++ l.names) contents.toUTF8 d.files }) hdirs
      rw [and_iff_right hclash, ← hrest]
      rfl

/-- **A disk takes a tree if and only if no location is both a file and a directory**, in an empty
directory and for locations that it takes at all. -/
theorem WellFormed.grantsAll_calls_iff (h : m.WellFormed) (hm : m.FitsDisk absolute) {d : Disk}
    (hbare : d.IsBare (d.base absolute)) :
    Disk.storage.grantsAll d m.calls = true ↔ ∀ l, ¬ m.Clash l := by
  obtain ⟨made, hmade, hgains⟩ := h.grantsAll_makeDirectories hm (fun l hl => hl)
    (fun names hnames => (hbare names hnames).2)
    (m.files.map fun file => .write ⟨file.1.text⟩ file.2)
  have hdirs : ∀ names, names ≠ [] →
      (made.base absolute ++ names ∈ made.dirs ↔ ⟨absolute, names⟩ ∈ m.dirs) := by
    intro names hnames
    rw [hgains.base_eq, hgains.mem_dirs_iff, or_iff_right (hbare names hnames).1]
    constructor
    · rintro ⟨l, hl, n, hn, hlength, heq⟩
      obtain rfl := List.append_cancel_left heq
      rw [← hm.absolute_eq l (.inl hl)]
      exact h.mem_dirs_of_mem hl hn hlength
    · exact fun hmem => ⟨_, hmem, names.length, List.length_pos_iff.2 hnames, le_rfl, by simp⟩
  rw [calls, hmade, h.grantsAll_writes hm (fun file hfile => List.mem_map_of_mem hfile) hdirs,
    forall_not_clash_iff, fileLocations, List.forall_mem_map]

/-! ### Histories -/

/-- **A location is both a file and a directory if deeds have made it both.** After some files were
put in and any deeds were done, it is if and only if one of the deeds that succeeded gave it
contents and one made it a directory. A directory lists a name twice if and only if what it leads to
is both, and a disk refuses the tree, where it takes the locations at all, if and only if one of
them is. -/
theorem clash_history (files : List (Path × String)) (deeds : List Deed) :
    (∀ l, ((ofFiles files).replay deeds).Clash l ↔
      (∃ d ∈ history files deeds, (d.gives? l).isSome = true) ∧
        l.isEmpty = false ∧ ∃ d ∈ history files deeds, d.Makes l) ∧
    (∀ path listing, ((ofFiles files).replay deeds).list path = .ok listing →
      ((listing.map Listed.name).Nodup ↔ ∀ name, IsOrdinary name →
        ¬ ((ofFiles files).replay deeds).Clash (path.join name).location)) ∧
    ∀ absolute (d : Disk), ((ofFiles files).replay deeds).FitsDisk absolute →
      d.IsBare (d.base absolute) →
      (Disk.storage.grantsAll d ((ofFiles files).replay deeds).calls = true ↔
        ∀ l, ¬ ((ofFiles files).replay deeds).Clash l) := by
  have hremembers := remembers_history files deeds
  have hwell := ((reachable_ofFiles files).replay deeds).wellFormed
  refine ⟨fun l => ?_, fun path listing hlist => hwell.nodup_names_iff hlist,
    fun absolute d hfits hbare => hwell.grantsAll_calls_iff hfits hbare⟩
  rw [Clash, hremembers.isFile_iff, hremembers.isDirectory_iff]

/-- A page and a placeholder that is kept beside the routes are files only. -/
def cached : Memory :=
  (ofFiles [(⟨"app/routes/page.tsx"⟩, "")]).replay
    [.call (.makeDirectory ⟨"app/.cache"⟩), .call (.write ⟨"./app/.cache//root.tsx"⟩ "x")]

/-- So the listing of their root has every name once, and a disk takes them. -/
theorem clash_history_cached : cached.FitsDisk false ∧ Disk.home.IsBare (Disk.home.base false) ∧
    (∃ listing, cached.list ⟨"app"⟩ = .ok listing ∧ (listing.map Listed.name).Nodup) ∧
    Disk.storage.grantsAll Disk.home cached.calls = true := by
  have hfits : cached.FitsDisk false := by decide +kernel
  have hfree : ∀ l, ¬ cached.Clash l := forall_not_clash_iff.2 (by decide +kernel)
  obtain ⟨-, hlistings, hdisk⟩ := clash_history [(⟨"app/routes/page.tsx"⟩, "")]
    [.call (.makeDirectory ⟨"app/.cache"⟩), .call (.write ⟨"./app/.cache//root.tsx"⟩ "x")]
  have hlist : cached.list ⟨"app"⟩ = .ok [⟨".cache", true⟩, ⟨"routes", true⟩] := by decide +kernel
  exact ⟨hfits, Disk.isBare_home, ⟨_, hlist, (hlistings _ _ hlist).2 fun name _ => hfree _⟩,
    (hdisk false Disk.home hfits Disk.isBare_home).2 hfree⟩

/-- A page of which a directory is made is both: the listing around it has its name twice, and a
disk does not take the tree. -/
theorem page_and_directory :
    let m := (ofFiles [(⟨"app/page.tsx"⟩, "")]).replay [.call (.makeDirectory ⟨"app/page.tsx"⟩)]
    m.Clash (Path.location ⟨"app/page.tsx"⟩) ∧
      m.list ⟨"app"⟩ = .ok [⟨"page.tsx", true⟩, ⟨"page.tsx", false⟩] ∧
      Disk.storage.grantsAll Disk.home m.calls = false := by
  refine ⟨by decide +kernel, by decide +kernel, by decide +kernel⟩

end Memory

end FileRoutes
