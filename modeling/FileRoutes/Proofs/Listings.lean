import FileRoutes.Proofs.Exhibits
import Mathlib.Data.List.Nodup

/-!
# Lawful listings

A storage is expected to list every entry of a directory once and by its **name**, a text that is
not empty and has no slash in it. Then no two directories of a scan have one path
(`pathBelow_inj`), no two files have one reference (`fileReference_inj`), and no file that means
something has that of a placeholder (`LayoutCache.referenceFor_ne`). So a live file is the file of
one entry of the configuration (`Folder.Lawful.exists_showing_eq`), and no other file with a meaning
is that of any (`Folder.Lawful.showing_eq_nil`).
-/

namespace FileRoutes

/-! ### Names and paths -/

/-- The name of an entry: a text that is not empty and has no slash in it. -/
def IsName (text : String) : Prop :=
  text ≠ "" ∧ '/' ∉ text.toList

instance (text : String) : Decidable (IsName text) :=
  inferInstanceAs (Decidable (_ ∧ _))

/-- Every entry is listed once, by its name. -/
structure LawfulListing (listing : List Listed) : Prop where
  nodup : listing.Nodup
  isName : ∀ e ∈ listing, IsName e.name

/-- The names on the path of an entry are those on the path of its directory, and its own. -/
theorem namesOf_entryPath {directory name : String} (h : IsName name) :
    Path.namesOf (entryPath directory name) = Path.namesOf directory ++ [name] := by
  unfold entryPath
  split
  · next hempty => simp [hempty, Path.namesOf_of_not_mem h.2 h.1]
  · rw [Path.namesOf_append_slash, Path.namesOf_of_not_mem h.2 h.1]

/-- The names on a path below a directory are those followed from there. -/
theorem namesOf_pathBelow {directory : String} {names : List String}
    (h : ∀ name ∈ names, IsName name) :
    Path.namesOf (pathBelow directory names) = Path.namesOf directory ++ names := by
  induction names generalizing directory with
  | nil => simp
  | cons name names ih =>
    obtain ⟨hname, hnames⟩ := List.forall_mem_cons.1 h
    rw [pathBelow_cons, ih hnames, namesOf_entryPath hname, List.append_assoc]
    rfl

/-- Different names lead to different paths. -/
theorem pathBelow_inj {directory : String} {names more : List String}
    (hnames : ∀ name ∈ names, IsName name) (hmore : ∀ name ∈ more, IsName name)
    (h : pathBelow directory names = pathBelow directory more) : names = more := by
  have hsame := congrArg Path.namesOf h
  rwa [namesOf_pathBelow hnames, namesOf_pathBelow hmore, List.append_cancel_left_eq] at hsame

/-- An entry of a relative directory has a relative path. -/
theorem isAbsolute_pathBelow {directory : String} {names : List String}
    (hdirectory : Path.isAbsolute ⟨directory⟩ = false) (h : ∀ name ∈ names, IsName name) :
    Path.isAbsolute ⟨pathBelow directory names⟩ = false := by
  induction names generalizing directory with
  | nil => exact hdirectory
  | cons name names ih =>
    obtain ⟨hname, hnames⟩ := List.forall_mem_cons.1 h
    refine ih ?_ hnames
    unfold entryPath
    split
    · have hslash := hname.2
      cases hchars : name.toList with
      | nil => simp [Path.isAbsolute, hchars]
      | cons c rest =>
        have hc : c ≠ '/' := fun hc => hslash (by simp [hchars, hc])
        simpa [Path.isAbsolute, hchars, List.isPrefixOf] using hc.symm
    · next hne =>
      have hchars : directory.toList ≠ [] := by simpa using hne
      obtain ⟨c, rest, hc⟩ := List.exists_cons_of_ne_nil hchars
      simpa [Path.isAbsolute, hc, List.isPrefixOf] using hdirectory

/-- Without the slashes at both ends no slash comes first. -/
private theorem head?_dropBothWhile_isSlash (chars : List Char) :
    (Text.dropBothWhile Text.isSlash chars).head? ≠ some '/' := by
  intro hslash
  have hhead := List.head?_dropWhile_not Text.isSlash chars
  -- what is cut off at the end leaves the first character as it is, or nothing at all
  have hbegins : Text.dropBothWhile Text.isSlash chars <+: chars.dropWhile Text.isSlash := by
    unfold Text.dropBothWhile Text.dropEndWhile
    rw [← List.reverse_suffix, List.reverse_reverse]
    exact List.dropWhile_suffix Text.isSlash
  obtain ⟨rest, hrest⟩ := List.head?_eq_some_iff.1 hslash
  obtain ⟨cut, hcut⟩ := hbegins
  rw [← hcut, hrest] at hhead
  simp [Text.isSlash] at hhead

/-- The routes directory has a relative path. -/
theorem isAbsolute_startDirectory (routes : String) :
    Path.isAbsolute ⟨startDirectory routes⟩ = false := by
  unfold startDirectory Path.isAbsolute
  simp only [String.toList_ofList]
  generalize (Option.getD _ _ : List Char) = below
  have hhead := head?_dropBothWhile_isSlash below
  cases hchars : Text.dropBothWhile Text.isSlash below with
  | nil => rfl
  | cons c rest =>
    have hc : c ≠ '/' := by
      rintro rfl
      simp [hchars] at hhead
    simpa [List.isPrefixOf] using hc.symm

/-- Different directories below the routes directory are listed under different paths. -/
theorem join_pathBelow_inj {root : Path} {directory : String} {names more : List String}
    (hdirectory : Path.isAbsolute ⟨directory⟩ = false)
    (hnames : ∀ name ∈ names, IsName name) (hmore : ∀ name ∈ more, IsName name)
    (h : root.join (pathBelow directory names) = root.join (pathBelow directory more)) :
    names = more := by
  have hsame := congrArg Path.names h
  rw [Path.names_join _ (isAbsolute_pathBelow hdirectory hnames),
    Path.names_join _ (isAbsolute_pathBelow hdirectory hmore), List.append_cancel_left_eq,
    namesOf_pathBelow hnames, namesOf_pathBelow hmore, List.append_cancel_left_eq] at hsame
  exact hsame

/-! ### Names of placeholders -/

/-- A text that can open the name of a file: not empty, without separators of either sort, and
without a dot in front. -/
structure IsStem (text : String) : Prop where
  ne_empty : text ≠ ""
  slash : '/' ∉ text.toList
  backslash : '\\' ∉ text.toList
  head : text.toList.head? ≠ some '.'

/-- Whatever the path of a directory looks like, the name of its placeholder is a stem. -/
theorem isStem_placeholderName (directory : String) : IsStem (placeholderName directory) := by
  have hdotted : ∀ c ∈ directory.toList.map (fun c => if c = '/' ∨ c = '\\' then '.' else c),
      c ≠ '/' ∧ c ≠ '\\' := by
    rw [List.forall_mem_map]
    intro c _
    split
    · decide
    · next h => exact not_or.1 h
  unfold placeholderName
  generalize directory.toList.map _ = dotted at hdotted
  have hhead := List.head?_dropWhile_not (· = '.') dotted
  have hkept := fun c hc => hdotted c ((List.dropWhile_suffix (· = '.')).subset hc)
  dsimp only
  generalize dotted.dropWhile _ = kept at hhead hkept
  cases kept with
  | nil => exact ⟨by decide, by decide, by decide, by decide⟩
  | cons c rest =>
    refine ⟨?_, ?_, ?_, ?_⟩
    · simp [← String.toList_inj]
    · rw [String.toList_ofList]
      exact fun hmem => (hkept _ hmem).1 rfl
    · rw [String.toList_ofList]
      exact fun hmem => (hkept _ hmem).2 rfl
    · simpa using hhead

/-- The name of a placeholder is not that of a file with a meaning. -/
theorem ofFileName?_placeholder (directory : String) :
    Convention.ofFileName? (LayoutCache.fileName directory) = none := by
  unfold LayoutCache.fileName
  generalize placeholderName directory = name
  have hparts : sourceParts? (name ++ ".layout.tsx") = some (name ++ ".layout", "tsx") := by
    simp [sourceParts?, splitLastDot?, sourceExtensions]
  have hstem : ∀ role : Convention, role.stem ≠ name ++ ".layout" := by
    intro role h
    have hchars := congrArg (fun text => text.toList.reverse) h
    cases role <;> simp [Convention.stem] at hchars
  simp [Convention.ofFileName?, hparts, hstem]

/-! ### References -/

/-- Different files below a directory have different references. -/
theorem fileReference_inj {directory : String} {folders others : List String}
    {name other : String} (hfolders : ∀ n ∈ folders, IsName n) (hothers : ∀ n ∈ others, IsName n)
    (hname : IsName name) (hother : IsName other)
    (h : fileReference (pathBelow directory (folders ++ [name])) =
      fileReference (pathBelow directory (others ++ [other]))) :
    folders = others ∧ name = other := by
  have hpath : pathBelow directory (folders ++ [name]) =
      pathBelow directory (others ++ [other]) := by
    have hchars := congrArg String.toList h
    simp only [fileReference, String.toList_append, List.append_cancel_left_eq] at hchars
    exact String.toList_inj.1 hchars
  have hnames := pathBelow_inj (List.forall_mem_append.2 ⟨hfolders, by simpa using hname⟩)
    (List.forall_mem_append.2 ⟨hothers, by simpa using hother⟩) hpath
  simpa using List.append_inj' hnames rfl

/-- What stands after the last slash is determined by the text. -/
private theorem eq_of_append_slash {a b name other : List Char} (hname : '/' ∉ name)
    (hother : '/' ∉ other) (h : a ++ '/' :: name = b ++ '/' :: other) : name = other := by
  have hsame := congrArg (List.splitOn '/') h
  rw [List.splitOn_append_cons_self, List.splitOn_append_cons_self,
    List.splitOn_eq_singleton hname, List.splitOn_eq_singleton hother] at hsame
  simpa using (List.append_inj' hsame rfl).2

namespace LayoutCache

/-- The reference of a placeholder is not that of a file with a meaning. -/
theorem referenceFor_ne (cache : LayoutCache) (start path directory : String) {name : String}
    (hname : IsName name) (hrole : Convention.ofFileName? name ≠ none) :
    cache.referenceFor start path ≠ fileReference (entryPath directory name) := by
  intro h
  have hfile : ∃ before, fileReference (entryPath directory name) = before ++ "/" ++ name := by
    unfold fileReference entryPath
    split
    · exact ⟨".", by simp⟩
    · exact ⟨"./" ++ directory, by simp [← String.toList_inj]⟩
  obtain ⟨before, hbefore⟩ := hfile
  have hslash : '/' ∉ (fileName (routeDirectory start path)).toList := by
    simpa [fileName] using (isStem_placeholderName (routeDirectory start path)).slash
  have hchars := congrArg String.toList (h.trans hbefore)
  simp only [referenceFor, reference, String.toList_append, List.append_assoc] at hchars
  have hsame := eq_of_append_slash hslash hname.2 (by simpa using hchars)
  rw [← String.toList_inj.1 hsame] at hrole
  exact hrole (ofFileName?_placeholder _)

end LayoutCache

/-! ### Live files of lawful listings -/

section

variable {ignored : IgnoreSet} {path : String} {listing : List Listed}

/-- Only a file that is not passed over means something, and does so by its name. -/
theorem liveRole?_eq_some_iff {e : Listed} {role : Convention} :
    liveRole? ignored path e = some role ↔ e.isDirectory = false ∧
      ignored.ignoresFile (entryPath path e.name) = false ∧
      Convention.ofFileName? e.name = some role := by
  unfold liveRole?
  grind

/-- A live page is its entry, by the role and the name of it. -/
theorem livePage?_eq_some_iff {e : Listed} {role : Convention} {name : String} :
    livePage? ignored path e = some (role, name) ↔
      role ≠ .layout ∧ e.name = name ∧ liveRole? ignored path e = some role := by
  unfold livePage?
  cases hrole : liveRole? ignored path e with
  | none => simp
  | some other =>
    cases other <;> simp only [Option.some.injEq, Prod.mk.injEq, reduceCtorEq, false_iff] <;>
      grind

/-- The effective layout of a directory is one of its live files. -/
theorem mem_of_effectiveLayout? {name : String}
    (h : effectiveLayout? ignored path listing = some name) :
    ∃ e ∈ listing, e.name = name ∧ liveRole? ignored path e = some .layout := by
  obtain ⟨e, he, rfl⟩ := Option.map_eq_some_iff.1 h
  have hmem := List.mem_of_getLast? he
  rw [List.mem_filter] at hmem
  exact ⟨e, hmem.1, rfl, by simpa using hmem.2⟩

/-- A live file of a directory is in the listing. -/
theorem mem_of_mem_liveFiles {role : Convention} {name : String}
    (h : (role, name) ∈ liveFiles ignored path listing) :
    ∃ e ∈ listing, e.name = name ∧ liveRole? ignored path e = some role := by
  unfold liveFiles at h
  rcases List.mem_append.1 h with h | h
  · simp only [List.mem_map, Option.mem_toList, Prod.mk.injEq] at h
    obtain ⟨layout, hlayout, rfl, rfl⟩ := h
    exact mem_of_effectiveLayout? hlayout
  · obtain ⟨e, he, hpage⟩ := List.mem_filterMap.1 h
    obtain ⟨-, hname, hrole⟩ := livePage?_eq_some_iff.1 hpage
    exact ⟨e, he, hname, hrole⟩

/-- The live files with the role of a page or not-found page. -/
theorem mem_liveFiles_page_iff {role : Convention} {name : String} (hrole : role ≠ .layout) :
    (role, name) ∈ liveFiles ignored path listing ↔
      ∃ e ∈ listing, e.name = name ∧ liveRole? ignored path e = some role := by
  refine ⟨mem_of_mem_liveFiles, ?_⟩
  rintro ⟨e, he, hname, hlive⟩
  exact List.mem_append_right _
    (List.mem_filterMap.2 ⟨e, he, livePage?_eq_some_iff.2 ⟨hrole, hname, hlive⟩⟩)

/-- The live file with the role of a layout is the effective one. -/
theorem mem_liveFiles_layout_iff {name : String} :
    (Convention.layout, name) ∈ liveFiles ignored path listing ↔
      effectiveLayout? ignored path listing = some name := by
  simp [liveFiles, livePage?_eq_some_iff]

/-- A lawful listing has every live file once. -/
theorem LawfulListing.nodup_liveFiles (h : LawfulListing listing) :
    (liveFiles ignored path listing).Nodup := by
  refine List.nodup_append.2 ⟨?_, ?_, ?_⟩
  · cases effectiveLayout? ignored path listing <;> simp
  · refine h.nodup.filterMap fun e f page he hf => ?_
    obtain ⟨role, name⟩ := page
    obtain ⟨-, hename, herole⟩ := livePage?_eq_some_iff.1 he
    obtain ⟨-, hfname, hfrole⟩ := livePage?_eq_some_iff.1 hf
    obtain ⟨hefile, -⟩ := liveRole?_eq_some_iff.1 herole
    obtain ⟨hffile, -⟩ := liveRole?_eq_some_iff.1 hfrole
    cases e
    cases f
    simp_all
  · rintro ⟨role, name⟩ hlayout page hpage rfl
    obtain ⟨layout, -, hsame⟩ := List.mem_map.1 hlayout
    obtain ⟨e, -, he⟩ := List.mem_filterMap.1 hpage
    exact (livePage?_eq_some_iff.1 he).1 (Prod.mk.inj hsame).1.symm

end

/-! ### Folders of lawful listings -/

namespace Folder

/-- Every listing seen is lawful. -/
def Lawful (F : Folder) : Prop :=
  ∀ d ∈ F.folders, LawfulListing d.2

/-- No listing seen has an entry twice. -/
private def Distinct : Folder → Prop
  | nil => True
  | entry e rest => e ∉ rest.listing ∧ rest.Distinct
  | directory name inside rest =>
    ⟨name, true⟩ ∉ rest.listing ∧ inside.Distinct ∧ rest.Distinct

private theorem distinct_of_nodup {F : Folder} (hlisting : F.listing.Nodup)
    (h : ∀ d ∈ F.foldersBelow, d.2.Nodup) : F.Distinct := by
  induction F with
  | nil => trivial
  | entry e rest ih =>
    obtain ⟨he, hrest⟩ := List.nodup_cons.1 hlisting
    exact ⟨he, ih hrest h⟩
  | directory name inside rest ihinside ihrest =>
    obtain ⟨hname, hrest⟩ := List.nodup_cons.1 hlisting
    rw [foldersBelow, List.forall_mem_append, List.forall_mem_map, List.forall_mem_cons] at h
    exact ⟨hname, ihinside h.1.1 h.1.2, ihrest hrest h.2⟩

/-- The first of the names that lead to a directory is in the listing. -/
private theorem mem_listing_of_mem_foldersBelow {F : Folder} {d : List String × List Listed}
    (h : d ∈ F.foldersBelow) :
    ∃ name more, d.1 = name :: more ∧ ⟨name, true⟩ ∈ F.listing := by
  induction F with
  | nil => simp [foldersBelow] at h
  | entry e rest ih =>
    obtain ⟨name, more, hd, hname⟩ := ih h
    exact ⟨name, more, hd, List.mem_cons_of_mem _ hname⟩
  | directory name inside rest _ ihrest =>
    rcases List.mem_append.1 h with h | h
    · obtain ⟨x, -, rfl⟩ := List.mem_map.1 h
      exact ⟨name, x.1, rfl, List.mem_cons_self⟩
    · obtain ⟨other, more, hd, hother⟩ := ihrest h
      exact ⟨other, more, hd, List.mem_cons_of_mem _ hother⟩

private theorem nodup_foldersBelow {F : Folder} (h : F.Distinct) :
    (F.foldersBelow.map Prod.fst).Nodup := by
  induction F with
  | nil => simp [foldersBelow]
  | entry e rest ih => exact ih h.2
  | directory name inside rest ihinside ihrest =>
    obtain ⟨hname, hinside, hrest⟩ := h
    rw [foldersBelow, List.map_append, List.map_map]
    have hfolders : (([], inside.listing) :: inside.foldersBelow).map Prod.fst |>.Nodup := by
      rw [List.map_cons, List.nodup_cons]
      refine ⟨fun hmem => ?_, ihinside hinside⟩
      obtain ⟨d, hd, hnil⟩ := List.mem_map.1 hmem
      obtain ⟨first, more, hcons, -⟩ := mem_listing_of_mem_foldersBelow hd
      simp [hcons] at hnil
    refine List.nodup_append.2 ⟨?_, ihrest hrest, ?_⟩
    · have hbelow := hfolders.map (List.cons_injective (a := name))
      rwa [List.map_map] at hbelow
    · intro folders hfolders other hother heq
      obtain ⟨x, -, rfl⟩ := List.mem_map.1 hfolders
      obtain ⟨d, hd, rfl⟩ := List.mem_map.1 hother
      obtain ⟨first, more, hcons, hlisted⟩ := mem_listing_of_mem_foldersBelow hd
      obtain ⟨rfl, -⟩ : name = first ∧ x.1 = more := by simpa [hcons] using heq
      -- two directories reached by the same first name would both be listed under it
      exact hname hlisted

/-- No directory is seen twice. -/
theorem Lawful.nodup_folders {F : Folder} (h : F.Lawful) : (F.folders.map Prod.fst).Nodup := by
  obtain ⟨hhere, hbelow⟩ := List.forall_mem_cons.1 h
  rw [folders, List.map_cons, List.nodup_cons]
  refine ⟨fun hmem => ?_, nodup_foldersBelow (distinct_of_nodup hhere.nodup fun d hd =>
    (hbelow d hd).nodup)⟩
  obtain ⟨d, hd, hnil⟩ := List.mem_map.1 hmem
  obtain ⟨first, more, hcons, -⟩ := mem_listing_of_mem_foldersBelow hd
  simp [hcons] at hnil

/-- The names that lead to a directory are names seen. -/
theorem Names.of_mem_folders {Q : String → Prop} {F : Folder} (h : F.Names Q)
    {d : List String × List Listed} (hd : d ∈ F.folders) : ∀ name ∈ d.1, Q name := by
  have hbelow : ∀ d ∈ F.foldersBelow, ∀ name ∈ d.1, Q name := by
    clear hd
    induction F with
    | nil => simp [foldersBelow]
    | entry e rest ih => exact ih h.2
    | directory name inside rest ihinside ihrest =>
      obtain ⟨hname, hinside, hrest⟩ := h
      rw [foldersBelow, List.forall_mem_append, List.forall_mem_map, List.forall_mem_cons]
      refine ⟨⟨by simpa using hname, fun d hd => ?_⟩, ihrest hrest⟩
      exact List.forall_mem_cons.2 ⟨hname, ihinside hinside d hd⟩
  rcases List.mem_cons.1 hd with rfl | hd
  · simp
  · exact hbelow d hd

/-- In lawful listings every entry has a name. -/
theorem Lawful.names {F : Folder} (h : F.Lawful) : F.Names IsName :=
  names_iff.2 fun d hd e he => (h d hd).isName e he

end Folder

/-! ### One entry for each live file -/

/-- The entries of a configuration that show a file, with those that enclose them. -/
def Entry.showing (entries : List Entry) (file : String) : List Placed :=
  (placedAll entries).filter fun p => p.entry.file = file

namespace Folder

section

variable {ignored : IgnoreSet} {cache : LayoutCache} {start path : String} {F : Folder}
  {folders : List String} {role : Convention} {name : String}

/-- The live files of a directory that was seen. -/
theorem mem_flatMap_liveIn_iff :
    (folders, role, name) ∈ F.folders.flatMap (liveIn ignored path) ↔
      ∃ listing, (folders, listing) ∈ F.folders ∧
        (role, name) ∈ liveFiles ignored (pathBelow path folders) listing := by
  simp only [List.mem_flatMap, liveIn, List.mem_map, Prod.mk.injEq]
  constructor
  · rintro ⟨⟨_, listing⟩, hd, file, hfile, rfl, rfl⟩
    exact ⟨listing, hd, hfile⟩
  · rintro ⟨listing, hd, hfile⟩
    exact ⟨(folders, listing), hd, (role, name), hfile, rfl, rfl⟩

/-- In lawful listings no live file occurs twice. -/
theorem Lawful.nodup_flatMap_liveIn (h : F.Lawful) :
    (F.folders.flatMap (liveIn ignored path)).Nodup := by
  refine List.nodup_flatMap.2 ⟨fun d hd => ?_, ?_⟩
  · exact (h d hd).nodup_liveFiles.map fun _ _ heq => (Prod.mk.inj heq).2
  · refine (List.pairwise_map.1 h.nodup_folders).imp fun {d e} hne => ?_
    refine List.disjoint_left.2 fun x hd he => ?_
    obtain ⟨_, -, rfl⟩ := List.mem_map.1 hd
    obtain ⟨_, -, heq⟩ := List.mem_map.1 he
    exact hne (Prod.mk.inj heq).1.symm

/-- An exhibit that was found is a live file of a directory that was seen. -/
theorem found?_mem_liveIn {reference : String → String} {x : Exhibit}
    (hx : x ∈ F.exhibits ignored reference path)
    (hfound : x.found? = some (folders, role, name)) :
    (folders, role, name) ∈ F.folders.flatMap (liveIn ignored path) :=
  found_exhibits_perm.mem_iff.1 (List.mem_filterMap.2 ⟨x, hx, hfound⟩)

/-- Only a live file itself is exhibited under its reference. -/
theorem Lawful.file_eq_iff (h : F.Lawful) (hfolders : ∀ n ∈ folders, IsName n)
    (hname : IsName name) (hrole : Convention.ofFileName? name = some role) {x : Exhibit}
    (hx : x ∈ F.exhibits ignored (cache.referenceFor start) path) :
    x.file (cache.referenceFor start) path = fileReference (pathBelow path (folders ++ [name])) ↔
      x.found? = some (folders, role, name) := by
  cases hfound : x.name? with
  | none =>
    -- a placeholder has the reference of no file that means something
    have hne := cache.referenceFor_ne start (pathBelow path x.folders) (pathBelow path folders)
      hname (by simp [hrole])
    simp [Exhibit.file, Exhibit.found?, hfound, pathBelow_append, hne]
  | some other =>
    have hx? := Exhibit.found?_eq_some_iff.2 ⟨rfl, rfl, hfound⟩
    obtain ⟨listing, hd, hlive⟩ := mem_flatMap_liveIn_iff.1 (found?_mem_liveIn hx hx?)
    obtain ⟨e, he, rfl, hrole'⟩ := mem_of_mem_liveFiles hlive
    rw [hx?, Exhibit.file, hfound]
    constructor
    · intro heq
      obtain ⟨rfl, rfl⟩ := fileReference_inj (h.names.of_mem_folders hd) hfolders
        ((h _ hd).isName e he) hname heq
      rw [← Option.some.inj ((liveRole?_eq_some_iff.1 hrole').2.2.symm.trans hrole)]
    · intro heq
      obtain ⟨rfl, rfl, rfl⟩ : x.folders = folders ∧ x.role = role ∧ e.name = name := by
        simpa using heq
      rfl

/-- Every exhibit is shown by one entry, and every entry shows one. -/
theorem Lawful.rel_isShownBy (h : F.Lawful) {reference : String → String} :
    Multiset.Rel (Exhibit.IsShownBy reference path)
      (F.exhibits ignored reference path : Multiset Exhibit)
      (Entry.placedAll (convert (F.nodes ignored reference path)) : Multiset Placed) :=
  rel_isShownBy_convert (names_iff.2 fun d hd e he => ((h d hd).isName e he).1)

/-- The files of the entries are those of the exhibits. -/
theorem Lawful.files_perm (h : F.Lawful) {reference : String → String} :
    ((F.exhibits ignored reference path).map (Exhibit.file reference path)).Perm
      ((Entry.placedAll (convert (F.nodes ignored reference path))).map (·.entry.file)) := by
  rw [← Multiset.coe_eq_coe, ← Multiset.map_coe, ← Multiset.map_coe, ← Multiset.rel_eq,
    Multiset.rel_map]
  exact h.rel_isShownBy.mono fun x _ p _ hx => hx.file.symm

/-- A file is that of as many entries as there are live files with its reference. -/
private theorem Lawful.length_showing (h : F.Lawful) (hfolders : ∀ n ∈ folders, IsName n)
    (hname : IsName name) (hrole : Convention.ofFileName? name = some role) :
    (Entry.showing (convert (F.nodes ignored (cache.referenceFor start) path))
        (fileReference (pathBelow path (folders ++ [name])))).length =
      (F.folders.flatMap (liveIn ignored path)).count (folders, role, name) := by
  have hfiles : ((F.exhibits ignored (cache.referenceFor start) path).map
      (Exhibit.file (cache.referenceFor start) path)).Perm _ := h.files_perm
  have hentries := hfiles.countP_eq fun file =>
    decide (file = fileReference (pathBelow path (folders ++ [name])))
  have hlive : ((F.exhibits ignored (cache.referenceFor start) path).filterMap
      Exhibit.found?).count (folders, role, name) =
      (F.folders.flatMap (liveIn ignored path)).count (folders, role, name) :=
    found_exhibits_perm.count_eq _
  rw [List.countP_map, List.countP_map] at hentries
  rw [Entry.showing, ← List.countP_eq_length_filter, ← hlive, List.count_eq_countP,
    List.countP_filterMap]
  refine hentries.symm.trans (List.countP_congr fun x hx => ?_)
  have hiff := h.file_eq_iff hfolders hname hrole hx
  cases hfound : x.found? with
  | none => simpa [hfound] using hiff
  | some file => simpa [hfound] using hiff

variable (cache start) in
/-- **A live file is the file of one entry**, which shows it as an exhibit. -/
theorem Lawful.exists_showing_eq (h : F.Lawful)
    (hlive : (folders, role, name) ∈ F.folders.flatMap (liveIn ignored path)) :
    ∃ p x, Entry.showing (convert (F.nodes ignored (cache.referenceFor start) path))
        (fileReference (pathBelow path (folders ++ [name]))) = [p] ∧
      x ∈ F.exhibits ignored (cache.referenceFor start) path ∧
      x.found? = some (folders, role, name) ∧
      x.IsShownBy (cache.referenceFor start) path p := by
  obtain ⟨listing, hd, hfile⟩ := mem_flatMap_liveIn_iff.1 hlive
  obtain ⟨e, he, rfl, hrole⟩ := mem_of_mem_liveFiles hfile
  have hfolders := h.names.of_mem_folders hd
  have hname := (h _ hd).isName e he
  obtain ⟨-, -, hconvention⟩ := liveRole?_eq_some_iff.1 hrole
  have hlength : (Entry.showing (convert (F.nodes ignored (cache.referenceFor start) path))
      (fileReference (pathBelow path (folders ++ [e.name])))).length = 1 :=
    (h.length_showing hfolders hname hconvention).trans
      (List.count_eq_one_of_mem h.nodup_flatMap_liveIn hlive)
  obtain ⟨p, hp⟩ := List.length_eq_one_iff.1 hlength
  obtain ⟨hplaced, hfile⟩ := List.mem_filter.1 (hp ▸ List.mem_singleton_self p)
  obtain ⟨x, hx, hshown⟩ := Multiset.exists_mem_of_rel_of_mem
    (Multiset.rel_flip.2 h.rel_isShownBy) (Multiset.mem_coe.2 hplaced)
  refine ⟨p, x, hp, hx, ?_, hshown⟩
  rw [← h.file_eq_iff hfolders hname hconvention hx, ← hshown.file]
  simpa using hfile

/-- A file with a meaning that is not live is the file of no entry. -/
theorem Lawful.showing_eq_nil (h : F.Lawful) (hfolders : ∀ n ∈ folders, IsName n)
    (hname : IsName name) (hrole : Convention.ofFileName? name = some role)
    (hlive : (folders, role, name) ∉ F.folders.flatMap (liveIn ignored path)) :
    Entry.showing (convert (F.nodes ignored (cache.referenceFor start) path))
      (fileReference (pathBelow path (folders ++ [name]))) = [] := by
  rw [← List.length_eq_zero_iff, h.length_showing hfolders hname hrole]
  exact List.count_eq_zero_of_not_mem hlive

end

end Folder

end FileRoutes
