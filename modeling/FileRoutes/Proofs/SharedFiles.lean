import FileRoutes.Proofs.Layouts

/-!
# Files that entries share

The files of a configuration are the live files of all directories, each in one entry, and the
placeholders of directories without a layout. No live file has the reference of another one or of a
placeholder. Placeholders may share theirs: the name of a placeholder has dots for the separators on
the path of its directory, so it does not tell `a.b` from `b` in `a`, and the routes directory is
called `root` like a directory in it may be.

Main results: directories have placeholders of their own where all names on the way are plain
(`placeholderName_inj`), and no two entries of a configuration have one file if and only if no two
placeholders have one name (`Job.Run.nodup_files_iff`).
-/

namespace FileRoutes

/-! ### The path of a directory below the routes directory -/

/-- Joined texts are the first one, then the others with a separator in front of each. -/
private theorem intercalate_cons_eq_flatMap (sep : Char) (first : List Char)
    (rest : List (List Char)) :
    [sep].intercalate (first :: rest) = first ++ rest.flatMap (sep :: ·) := by
  induction rest generalizing first with
  | nil => simp
  | cons next rest ih =>
    rw [List.intercalate_cons_cons, ih, List.flatMap_cons, List.append_assoc]
    rfl

private theorem toList_intercalate_cons (name : String) (names : List String) :
    ("/".intercalate (name :: names)).toList =
      name.toList ++ (names.map String.toList).flatMap ('/' :: ·) := by
  rw [String.toList_intercalate, List.map_cons]
  exact intercalate_cons_eq_flatMap '/' _ _

/-- What is below a directory comes after its path, with a slash in front of each name. -/
private theorem toList_pathBelow {start : String} (hstart : start ≠ "") (names : List String) :
    (pathBelow start names).toList =
      start.toList ++ (names.map String.toList).flatMap ('/' :: ·) := by
  induction names generalizing start with
  | nil => simp
  | cons name names ih =>
    have hentry : entryPath start name = start ++ "/" ++ name := if_neg hstart
    have hne : start ++ "/" ++ name ≠ "" := by simp
    rw [pathBelow_cons, hentry, ih hne]
    simp

/-- A name does not begin with a slash. -/
private theorem dropWhile_isSlash_name {name : String} (h : IsName name) (rest : List Char) :
    (name.toList ++ rest).dropWhile Text.isSlash = name.toList ++ rest := by
  obtain ⟨hne, hslash⟩ := h
  cases hchars : name.toList with
  | nil => exact absurd (String.toList_eq_nil_iff.1 hchars) hne
  | cons c chars =>
    have hc : c ≠ '/' := by
      rintro rfl
      simp [hchars] at hslash
    simp [Text.isSlash, hc]

/-- What a path has after that of the routes directory is the path below it, without slashes in
front. -/
private theorem toList_routeDirectory {start path : String} {below : List Char}
    (h : path.toList = start.toList ++ below) :
    (routeDirectory start path).toList = below.dropWhile Text.isSlash := by
  have hbelow := (List.isPrefixOf?_eq_some_iff_append_eq (α := Char)).2 h.symm
  rw [routeDirectory, hbelow, String.toList_ofList]

/-- The path of a directory below the routes directory is made of the names that lead to it. -/
theorem routeDirectory_pathBelow (start : String) {names : List String}
    (h : ∀ name ∈ names, IsName name) :
    routeDirectory start (pathBelow start names) = "/".intercalate names := by
  rw [← String.toList_inj]
  cases names with
  | nil => simp [toList_routeDirectory (List.append_nil start.toList).symm]
  | cons name names =>
    have hname := h name List.mem_cons_self
    rw [toList_intercalate_cons]
    by_cases hstart : start = ""
    · subst hstart
      have hpath : (pathBelow "" (name :: names)).toList =
          "".toList ++ (name.toList ++ (names.map String.toList).flatMap ('/' :: ·)) :=
        toList_pathBelow hname.1 names
      rw [toList_routeDirectory hpath, dropWhile_isSlash_name hname]
    · have hpath := toList_pathBelow hstart (name :: names)
      rw [toList_routeDirectory hpath, List.map_cons, List.flatMap_cons, List.cons_append,
        List.dropWhile_cons_of_pos rfl, dropWhile_isSlash_name hname]

/-! ### Names of placeholders -/

/-- A name that stays as it is in the name of a placeholder and can be told from its neighbours
there: it has no backslash, and no dots but the three after the bracket of a segment that takes what
is left of an address. -/
def IsPlainFolder (name : String) : Prop :=
  '\\' ∉ name.toList ∧
    ∃ rest, '.' ∉ rest ∧ (name.toList = rest ∨ name.toList = ['[', '.', '.', '.'] ++ rest)

/-- What stands between the dots of a plain folder's name. -/
private theorem splitOn_dot_of_isPlainFolder {name : String} (hplain : IsPlainFolder name) :
    name.toList.splitOn '.' = [name.toList] ∨
      ∃ rest, name.toList = ['[', '.', '.', '.'] ++ rest ∧
        name.toList.splitOn '.' = [['['], [], [], rest] := by
  obtain ⟨-, rest, hrest, heq | heq⟩ := hplain
  · exact .inl (List.splitOn_eq_singleton (heq ▸ hrest))
  · refine .inr ⟨rest, heq, ?_⟩
    rw [heq]
    have hparts := List.splitOn_eq_singleton hrest
    simp [List.splitOn_cons_eq_if_modifyHead, hparts]

/-- Plain folders can be told from what stands between the dots of all their names. -/
private theorem flatMap_splitOn_dot_inj {names more : List String}
    (hnames : ∀ name ∈ names, IsName name ∧ IsPlainFolder name)
    (hmore : ∀ name ∈ more, IsName name ∧ IsPlainFolder name)
    (h : names.flatMap (fun name => name.toList.splitOn '.') =
      more.flatMap fun name => name.toList.splitOn '.') : names = more := by
  have hne : ∀ {name : String}, IsName name ∧ IsPlainFolder name → name.toList ≠ [] :=
    fun hname => by simpa using hname.1.1
  -- only within the name of such a segment is there nothing between two dots
  have hfirst : ∀ {names : List String} {rest : List (List Char)},
      (∀ name ∈ names, IsName name ∧ IsPlainFolder name) →
      names.flatMap (fun name => name.toList.splitOn '.') ≠ [] :: rest := by
    intro names rest hnames heq
    cases names with
    | nil => cases heq
    | cons name names =>
      have hname := hnames name List.mem_cons_self
      rw [List.flatMap_cons] at heq
      rcases splitOn_dot_of_isPlainFolder hname.2 with hparts | ⟨_, -, hparts⟩
      · rw [hparts] at heq
        exact hne hname (List.cons.inj heq).1
      · rw [hparts] at heq
        cases heq
  induction names generalizing more with
  | nil =>
    cases more with
    | nil => rfl
    | cons other more =>
      rcases splitOn_dot_of_isPlainFolder (hmore other List.mem_cons_self).2 with
        hparts | ⟨_, -, hparts⟩ <;> simp [hparts] at h
  | cons name names ih =>
    obtain ⟨hname, hnames⟩ := List.forall_mem_cons.1 hnames
    cases more with
    | nil =>
      rcases splitOn_dot_of_isPlainFolder hname.2 with hparts | ⟨_, -, hparts⟩ <;>
        simp [hparts] at h
    | cons other more =>
      obtain ⟨hother, hmore⟩ := List.forall_mem_cons.1 hmore
      rw [List.flatMap_cons, List.flatMap_cons] at h
      rcases splitOn_dot_of_isPlainFolder hname.2 with hparts | ⟨rest, hchars, hparts⟩ <;>
        rcases splitOn_dot_of_isPlainFolder hother.2 with hparts' | ⟨rest', hchars', hparts'⟩ <;>
          rw [hparts, hparts'] at h
      · obtain ⟨hsame, htails⟩ := List.cons.inj h
        rw [String.toList_inj.1 hsame, ih hnames hmore htails]
      · exact absurd (List.cons.inj h).2 (hfirst hnames)
      · exact absurd (List.cons.inj h).2.symm (hfirst hmore)
      · obtain ⟨rfl, htails⟩ : rest = rest' ∧ _ := by simpa using h
        rw [String.toList_inj.1 (hchars.trans hchars'.symm), ih hnames hmore htails]

/-- With dots in between, names split at the dots as each of them does. -/
private theorem splitOn_dot_intercalate {names : List String} (h : names ≠ []) :
    (['.'].intercalate (names.map String.toList)).splitOn '.' =
      names.flatMap fun name => name.toList.splitOn '.' := by
  induction names with
  | nil => exact absurd rfl h
  | cons name names ih =>
    cases names with
    | nil => simp
    | cons other names =>
      rw [List.map_cons, List.map_cons, List.intercalate_cons_cons, List.append_assoc,
        List.singleton_append, List.splitOn_append_cons_self, ← List.map_cons, ih (by simp)]
      rfl

/-- The name of the placeholder of a directory with plain names on the way. -/
private theorem toList_placeholderName {names : List String} (h : names ≠ [])
    (hnames : ∀ name ∈ names, IsName name ∧ IsPlainFolder name) :
    (placeholderName ("/".intercalate names)).toList =
      ['.'].intercalate (names.map String.toList) := by
  have hkept : ∀ name ∈ names,
      name.toList.map (fun c => if c = '/' ∨ c = '\\' then '.' else c) = name.toList := by
    intro name hname
    obtain ⟨⟨-, hslash⟩, hbackslash, -⟩ := hnames name hname
    refine (List.map_congr_left fun c hc => if_neg ?_).trans (List.map_id _)
    rintro (rfl | rfl)
    · exact hslash hc
    · exact hbackslash hc
  obtain ⟨name, names, rfl⟩ := List.exists_cons_of_ne_nil h
  have hdotted : ("/".intercalate (name :: names)).toList.map
      (fun c => if c = '/' ∨ c = '\\' then '.' else c) =
        ['.'].intercalate ((name :: names).map String.toList) := by
    rw [toList_intercalate_cons, List.map_append, hkept name List.mem_cons_self, List.map_cons,
      intercalate_cons_eq_flatMap, List.map_flatMap, List.flatMap_map, List.flatMap_map]
    refine congrArg _ (List.flatMap_congr fun other hother => ?_)
    rw [List.map_cons, hkept other (List.mem_cons_of_mem _ hother)]
    rfl
  -- the first name does not begin with a dot, so none is cut off
  obtain ⟨c, chars, hc, hdot⟩ : ∃ c chars, name.toList = c :: chars ∧ c ≠ '.' := by
    obtain ⟨⟨hne, -⟩, -, rest, hrest, heq | heq⟩ := hnames name List.mem_cons_self
    · obtain ⟨c, chars, rfl⟩ := List.exists_cons_of_ne_nil (l := rest) (by simp [← heq, hne])
      exact ⟨c, chars, heq, (List.ne_of_not_mem_cons hrest).symm⟩
    · exact ⟨'[', _, heq, by decide⟩
  rw [placeholderName, hdotted, List.map_cons, intercalate_cons_eq_flatMap, hc, List.cons_append,
    List.dropWhile_cons_of_neg (by simpa using hdot)]
  exact String.toList_ofList

private theorem placeholderName_inj_of_ne_nil {folders others : List String}
    (hne : folders ≠ []) (hne' : others ≠ [])
    (hfolders : ∀ name ∈ folders, IsName name ∧ IsPlainFolder name)
    (hothers : ∀ name ∈ others, IsName name ∧ IsPlainFolder name)
    (h : placeholderName ("/".intercalate folders) = placeholderName ("/".intercalate others)) :
    folders = others := by
  have hsame := congrArg (fun name => name.toList.splitOn '.') h
  simp only [toList_placeholderName hne hfolders, toList_placeholderName hne' hothers,
    splitOn_dot_intercalate hne, splitOn_dot_intercalate hne'] at hsame
  exact flatMap_splitOn_dot_inj hfolders hothers hsame

/-- **Directories with plain names on the way have placeholders of their own**, unless one of them
is the routes directory and the other bears the name of its placeholder. -/
theorem placeholderName_inj {folders others : List String}
    (hfolders : ∀ name ∈ folders, IsName name ∧ IsPlainFolder name)
    (hothers : ∀ name ∈ others, IsName name ∧ IsPlainFolder name)
    (hroot : folders = [] → others ≠ [rootPlaceholderName])
    (hroot' : others = [] → folders ≠ [rootPlaceholderName])
    (h : placeholderName ("/".intercalate folders) = placeholderName ("/".intercalate others)) :
    folders = others := by
  have hplain : ∀ name ∈ [rootPlaceholderName], IsName name ∧ IsPlainFolder name := by
    rw [List.forall_mem_singleton]
    exact ⟨by decide, by decide, _, by decide, .inl rfl⟩
  -- the placeholder of the routes directory is that of a folder of this name
  have hsame : placeholderName ("/".intercalate []) =
      placeholderName ("/".intercalate [rootPlaceholderName]) := by decide
  by_cases hnil : folders = [] <;> by_cases hnil' : others = []
  · rw [hnil, hnil']
  · rw [hnil, hsame] at h
    exact absurd (placeholderName_inj_of_ne_nil (by simp) hnil' hplain hothers h).symm (hroot hnil)
  · rw [hnil', hsame] at h
    exact absurd (placeholderName_inj_of_ne_nil hnil (by simp) hfolders hplain h) (hroot' hnil')
  · exact placeholderName_inj_of_ne_nil hnil hnil' hfolders hothers h

/-! ### The directories that are given placeholders -/

/-- The directory of a placeholder. -/
def Exhibit.placeholder? (x : Exhibit) : Option (List String) :=
  match x.name? with
  | some _ => none
  | none => some x.folders

namespace Folder

section

variable {ignored : IgnoreSet} {reference : String → String} {path : String} {F : Folder}

/-- The directories without an effective layout. -/
private def bare (ignored : IgnoreSet) (path : String)
    (folders : List (List String × List Listed)) : List (List String) :=
  (folders.filter fun d => (effectiveLayout? ignored (pathBelow path d.1) d.2).isNone).map Prod.fst

theorem placeholder?_within (layout : String) (xs : List Exhibit) :
    (xs.map (Exhibit.within layout)).filterMap Exhibit.placeholder? =
      xs.filterMap Exhibit.placeholder? := by
  rw [List.filterMap_map]
  rfl

theorem placeholder?_inFolder (name : String) (xs : List Exhibit) :
    (xs.map (Exhibit.inFolder name)).filterMap Exhibit.placeholder? =
      (xs.filterMap Exhibit.placeholder?).map (name :: ·) := by
  rw [List.filterMap_map, List.map_filterMap]
  congr 1
  funext x
  cases hx : x.name? <;> simp [Exhibit.placeholder?, Exhibit.inFolder, hx]

/-- Closing a directory gives it a placeholder at most, and only if it has no layout. -/
private theorem placeholder?_close_sublist {exhibited : List Exhibit}
    (h : (exhibited.filterMap Exhibit.placeholder?).Sublist (bare ignored path F.foldersBelow)) :
    ((F.closeExhibits ignored reference path exhibited).filterMap Exhibit.placeholder?).Sublist
      (bare ignored path F.folders) := by
  unfold closeExhibits folders bare
  cases hlayout : effectiveLayout? ignored path F.listing with
  | some name =>
    simp only [Exhibit.placeholder?, List.filterMap_cons, placeholder?_within, pathBelow_nil,
      List.filter_cons, hlayout]
    exact h
  | none =>
    simp only [List.filter_cons, pathBelow_nil, hlayout]
    split
    · rw [List.filterMap_cons, placeholder?_within]
      exact h.cons_cons _
    · exact h.cons _

private theorem placeholder?_found_sublist :
    ((F.foundExhibits ignored reference path).filterMap Exhibit.placeholder?).Sublist
      (bare ignored path F.foldersBelow) := by
  induction F generalizing path with
  | nil => simp [foundExhibits]
  | entry e rest ih =>
    rw [foundExhibits, List.filterMap_append, List.filterMap_map]
    have hnone : (livePage? ignored path e).toList.filterMap (Exhibit.placeholder? ∘ fun page =>
        ⟨[], page.1, some page.2, []⟩) = [] := by
      simp [Exhibit.placeholder?]
    rw [hnone]
    exact ih
  | directory name inside rest ihinside ihrest =>
    rw [foundExhibits, List.filterMap_append, placeholder?_inFolder, foldersBelow, bare,
      List.filter_append, List.map_append]
    refine List.Sublist.append ?_ ihrest
    -- seen from here, the name of the directory stands in front of all names inside it
    have hinside := (@placeholder?_close_sublist ignored reference (entryPath path name) inside _
      ihinside).map (name :: ·)
    rw [bare, List.map_map] at hinside
    rw [List.filter_map, List.map_map]
    exact hinside

/-- **Directories that are given placeholders are directories without a layout**, each once. -/
theorem placeholders_sublist :
    ((F.exhibits ignored reference path).filterMap Exhibit.placeholder?).Sublist
      ((F.folders.filter fun d =>
        (effectiveLayout? ignored (pathBelow path d.1) d.2).isNone).map Prod.fst) :=
  placeholder?_close_sublist placeholder?_found_sublist

/-- The files of exhibits: those that were found, and the placeholders. -/
private theorem map_file_perm (exhibited : List Exhibit) :
    (exhibited.map (Exhibit.file reference path)).Perm
      ((exhibited.filterMap Exhibit.found?).map
          (fun x => fileReference (pathBelow path (x.1 ++ [x.2.2]))) ++
        (exhibited.filterMap Exhibit.placeholder?).map fun folders =>
          reference (pathBelow path folders)) := by
  induction exhibited with
  | nil => simp
  | cons x rest ih =>
    cases hx : x.name? with
    | some name =>
      simpa [Exhibit.file, Exhibit.found?, Exhibit.placeholder?, List.filterMap_cons, hx] using ih
    | none =>
      simp only [List.map_cons, List.filterMap_cons, Exhibit.file, Exhibit.found?,
        Exhibit.placeholder?, hx, Option.map_none]
      exact (ih.cons _).trans List.perm_middle.symm

end

end Folder

/-! ### The files of a configuration -/

/-- The references of placeholders agree if their names do. -/
theorem LayoutCache.reference_inj_iff {cache : LayoutCache} {directory other : String} :
    cache.reference directory = cache.reference other ↔
      placeholderName directory = placeholderName other := by
  simp [reference, fileName, ← String.toList_inj]

/-- The reference of the placeholder of a directory below the routes directory. -/
theorem LayoutCache.referenceFor_pathBelow (cache : LayoutCache) (start : String)
    {folders : List String} (h : ∀ name ∈ folders, IsName name) :
    cache.referenceFor start (pathBelow start folders) =
      cache.reference ("/".intercalate folders) := by
  rw [referenceFor, routeDirectory_pathBelow start h]

/-- The files of the entries of a configuration are the `authored` ones, which are the live files of
the listed directories, and placeholders for `directories`, which have no layout of their own. -/
structure EntryFiles (o : Options) (ignored : IgnoreSet) (events : List Event)
    (entries : List Entry) (authored : List (List String × Convention × String))
    (directories : List (List String)) : Prop where
  nodup_authored : authored.Nodup
  mem_authored : ∀ folders role name, (folders, role, name) ∈ authored ↔
    (∀ n ∈ folders, IsName n) ∧ o.ListsLive ignored events folders role name
  nodup_directories : directories.Nodup
  mem_directories : ∀ folders ∈ directories,
    (∀ n ∈ folders, IsName n) ∧ o.LacksLayout ignored events folders
  files : ((Entry.preorderAll entries).map (·.file)).Perm
    (authored.map (fun x => o.referenceOf x.1 x.2.2) ++
      directories.map fun folders => o.cache.reference ("/".intercalate folders))

namespace EntryFiles

variable {o : Options} {ignored : IgnoreSet} {events : List Event} {entries : List Entry}
  {authored : List (List String × Convention × String)} {directories : List (List String)}

/-- An authored file is told by the names that lead to it, and by its own. -/
private theorem names_of_mem_authored (h : EntryFiles o ignored events entries authored directories)
    (hlawful : ∀ path listing, Event.listed path listing ∈ events → LawfulListing listing)
    {x : List String × Convention × String} (hx : x ∈ authored) :
    (∀ n ∈ x.1, IsName n) ∧ IsName x.2.2 ∧ Convention.ofFileName? x.2.2 = some x.2.1 := by
  obtain ⟨folders, role, name⟩ := x
  obtain ⟨hfolders, listing, hlisting, hlive⟩ := (h.mem_authored _ _ _).1 hx
  obtain ⟨e, he, rfl, hrole⟩ := mem_of_mem_liveFiles hlive
  exact ⟨hfolders, (hlawful _ _ (mem_of_listingOf? hlisting)).isName e he,
    (liveRole?_eq_some_iff.1 hrole).2.2⟩

/-- No two entries have one file if and only if no two placeholders have one name. -/
theorem nodup_iff (h : EntryFiles o ignored events entries authored directories)
    (hlawful : ∀ path listing, Event.listed path listing ∈ events → LawfulListing listing) :
    ((Entry.preorderAll entries).map (·.file)).Nodup ↔
      (directories.map fun folders => placeholderName ("/".intercalate folders)).Nodup := by
  have hauthored : (authored.map fun x => o.referenceOf x.1 x.2.2).Nodup := by
    refine h.nodup_authored.map_on fun x hx y hy hsame => ?_
    obtain ⟨hfolders, hname, hrole⟩ := h.names_of_mem_authored hlawful hx
    obtain ⟨hfolders', hname', hrole'⟩ := h.names_of_mem_authored hlawful hy
    obtain ⟨hfirst, hlast⟩ := fileReference_inj hfolders hfolders' hname hname' hsame
    have hroles : x.2.1 = y.2.1 := Option.some.inj (hrole.symm.trans (hlast ▸ hrole'))
    exact Prod.ext hfirst (Prod.ext hroles hlast)
  -- a placeholder has the file of no authored one
  have hapart : ∀ x ∈ authored, ∀ folders ∈ directories,
      o.referenceOf x.1 x.2.2 ≠ o.cache.reference ("/".intercalate folders) := by
    intro x hx folders hfolders hsame
    obtain ⟨-, hname, hrole⟩ := h.names_of_mem_authored hlawful hx
    obtain ⟨hnames, -⟩ := h.mem_directories folders hfolders
    rw [← o.cache.referenceFor_pathBelow (startDirectory o.routes) hnames, Options.referenceOf,
      pathBelow_append] at hsame
    exact o.cache.referenceFor_ne _ _ _ hname (by simp [hrole]) hsame.symm
  have hplaceholders : (directories.map fun folders =>
      o.cache.reference ("/".intercalate folders)).Nodup ↔
        (directories.map fun folders => placeholderName ("/".intercalate folders)).Nodup := by
    simp only [List.Nodup, List.pairwise_map, ne_eq, LayoutCache.reference_inj_iff]
  rw [h.files.nodup_iff, List.nodup_append, hplaceholders]
  simp only [List.forall_mem_map]
  exact ⟨fun hnodup => hnodup.2.1, fun hnodup => ⟨hauthored, hnodup, hapart⟩⟩

/-- Where all names that lead to them are plain, the placeholders have names of their own. -/
theorem nodup_placeholders (h : EntryFiles o ignored events entries authored directories)
    (hplain : ∀ folders ∈ directories, ∀ name ∈ folders, IsPlainFolder name)
    (hroot : [] ∈ directories → [rootPlaceholderName] ∉ directories) :
    (directories.map fun folders => placeholderName ("/".intercalate folders)).Nodup := by
  have hnames : ∀ folders ∈ directories, ∀ name ∈ folders, IsName name ∧ IsPlainFolder name :=
    fun folders hfolders name hname =>
      ⟨(h.mem_directories folders hfolders).1 name hname, hplain folders hfolders name hname⟩
  refine h.nodup_directories.map_on fun folders hfolders others hothers hsame => ?_
  refine placeholderName_inj (hnames _ hfolders) (hnames _ hothers) ?_ ?_ hsame
  · rintro rfl rfl
    exact hroot hfolders hothers
  · rintro rfl rfl
    exact hroot hothers hfolders

end EntryFiles

/-- The files of the configuration of a lawful folder: its live files, and the placeholders among
its exhibits. -/
theorem Folder.Lawful.entryFiles {o : Options} {ignored : IgnoreSet} {events : List Event}
    {F : Folder} (h : F.Lawful) (hlistings : F.ListedIn o events) :
    EntryFiles o ignored events
      (convert (F.nodes ignored (o.cache.referenceFor (startDirectory o.routes))
        (startDirectory o.routes)))
      (F.folders.flatMap (liveIn ignored (startDirectory o.routes)))
      ((F.exhibits ignored (o.cache.referenceFor (startDirectory o.routes))
        (startDirectory o.routes)).filterMap Exhibit.placeholder?) := by
  have hbare : ((F.exhibits ignored (o.cache.referenceFor (startDirectory o.routes))
    (startDirectory o.routes)).filterMap Exhibit.placeholder?).Sublist _ := placeholders_sublist
  have hdirectories : ∀ folders ∈ (F.exhibits ignored
      (o.cache.referenceFor (startDirectory o.routes))
      (startDirectory o.routes)).filterMap Exhibit.placeholder?,
      (∀ n ∈ folders, IsName n) ∧ o.LacksLayout ignored events folders := by
    intro folders hfolders
    obtain ⟨d, hd, rfl⟩ := List.mem_map.1 (hbare.subset hfolders)
    obtain ⟨hd, hnone⟩ := List.mem_filter.1 hd
    have hnames := h.names.of_mem_folders hd
    exact ⟨hnames, d.2, (hlistings d.1 hnames d.2).2 hd, by simpa using hnone⟩
  refine ⟨h.nodup_flatMap_liveIn, ?_, ?_, hdirectories, ?_⟩
  · intro folders role name
    rw [mem_flatMap_liveIn_iff]
    constructor
    · rintro ⟨listing, hd, hlive⟩
      have hnames := h.names.of_mem_folders hd
      exact ⟨hnames, listing, (hlistings folders hnames listing).2 hd, hlive⟩
    · rintro ⟨hnames, listing, hlisting, hlive⟩
      exact ⟨listing, (hlistings folders hnames listing).1 hlisting, hlive⟩
  · exact (h.nodup_folders.sublist ((List.filter_sublist).map Prod.fst)).sublist hbare
  · rw [← Entry.map_entry_placedAll, List.map_map]
    refine h.files_perm.symm.trans ((map_file_perm _).trans (.append ?_ ?_))
    · exact found_exhibits_perm.map fun x => o.referenceOf x.1 x.2.2
    · refine .of_eq (List.map_congr_left fun folders hfolders => ?_)
      exact o.cache.referenceFor_pathBelow _ (hdirectories folders hfolders).1

theorem Folder.Lawful.exists_entryFiles {o : Options} {ignored : IgnoreSet} {events : List Event}
    {F : Folder} (h : F.Lawful) (hlistings : F.ListedIn o events) :
    ∃ authored directories, EntryFiles o ignored events
      (convert (F.nodes ignored (o.cache.referenceFor (startDirectory o.routes))
        (startDirectory o.routes))) authored directories :=
  ⟨_, _, h.entryFiles hlistings⟩

/-- **Only placeholders are shared**: in a configuration that a build of lawful listings is
converted to, no two entries have one file if and only if no two directories that are given
placeholders have these under one name. That is so if all names that lead to these directories are
plain, unless the routes directory is among them and a directory in it has the name of its
placeholder. -/
theorem Job.Run.nodup_files_iff {σ : Type} {storage : Storage (StateM σ)} {o : Options}
    {depth : Nat} {s s' : σ} {events : List Event} {job : Job (List Node)} {tree : List Node}
    (hrun : Job.Run storage (buildTree o depth) s events job s')
    (hresult : job.result? = some (.ok tree))
    (hlawful : ∀ path listing, Event.listed path listing ∈ events → LawfulListing listing) :
    ∃ ignored authored directories, IgnoreSet.ofTexts o.ignored = .ok ignored ∧
      EntryFiles o ignored events (convert tree) authored directories ∧
      (((Entry.preorderAll (convert tree)).map (·.file)).Nodup ↔
        (directories.map fun folders => placeholderName ("/".intercalate folders)).Nodup) ∧
      ((∀ folders ∈ directories, ∀ name ∈ folders, IsPlainFolder name) →
        ([] ∈ directories → [rootPlaceholderName] ∉ directories) →
        ((Entry.preorderAll (convert tree)).map (·.file)).Nodup) := by
  obtain ⟨ignored, F, hignored, hF, rfl, hlistings⟩ := hrun.exists_lawful_folder hresult hlawful
  obtain ⟨authored, directories, hfiles⟩ : ∃ authored directories,
      EntryFiles o ignored events _ authored directories := hF.exists_entryFiles hlistings
  have hiff := hfiles.nodup_iff hlawful
  exact ⟨ignored, authored, directories, hignored, hfiles, hiff, fun hplain hroot =>
    hiff.2 (hfiles.nodup_placeholders hplain hroot)⟩

/-- No two entries of the users' routes have one file: one placeholder is made for them. -/
theorem Job.Run.nodup_files_users : ∃ events job m',
    Job.Run Memory.storage (buildTree {} 4) Memory.users events job m' ∧
      job.result? = some (.ok Memory.usersTree) ∧
      ∃ ignored authored directories,
        EntryFiles {} ignored events (convert Memory.usersTree) authored directories ∧
        (directories.map fun folders => placeholderName ("/".intercalate folders)).Nodup := by
  obtain ⟨events, job, m', hrun, hresult⟩ := Memory.exists_run_users
  obtain ⟨ignored, authored, directories, -, hfiles, hiff, -⟩ :=
    Job.Run.nodup_files_iff hrun hresult fun _ _ hlisted =>
      hrun.lawful_listed (Memory.reachable_ofFiles _) hlisted
  have hnodup : ((Entry.preorderAll (convert Memory.usersTree)).map (·.file)).Nodup := by
    have hfiles : (Entry.preorderAll (convert Memory.usersTree)).map (·.file) =
        ["./routes/layout.tsx", ".react-router/layouts/users.layout.tsx",
          "./routes/users/[id]/layout.tsx", "./routes/users/[id]/page.tsx",
          "./routes/users/not-found.tsx"] := by
      simp [Memory.usersTree, Node.layout, Node.route, Node.indexPage, Node.notFound, Node.isLayout,
        Partition.directory, Partition.split, Partition.add, convert, convertEach, convertNode,
        resolve, hoist, notFoundRoute?, Entry.preorder_eq, Entry.layout, Entry.route, Entry.index]
    rw [hfiles]
    decide
  exact ⟨events, job, m', hrun, hresult, ignored, authored, directories, hfiles, hiff.1 hnodup⟩

/-- The routes directory and a directory `root` in it are given one placeholder. -/
theorem Memory.file_shared_with_root : ∃ entries,
    (Memory.compile (.ofFiles [(⟨"app/routes/root/page.tsx"⟩, "")]) {}).1 = .ok entries ∧
      ¬ ((Entry.preorderAll entries).map (·.file)).Nodup := by
  have htree : (Memory.buildTree (.ofFiles [(⟨"app/routes/root/page.tsx"⟩, "")]) {}).1 =
      .ok [.layout ".react-router/layouts/root.layout.tsx" [.route "root" false
        [.layout ".react-router/layouts/root.layout.tsx"
          [.indexPage "./routes/root/page.tsx"]]]] := by
    decide +kernel
  rw [compile_eq]
  refine ⟨_, congrArg (Except.map convert) htree, ?_⟩
  have hfiles : (Entry.preorderAll (convert [.layout ".react-router/layouts/root.layout.tsx"
      [.route "root" false [.layout ".react-router/layouts/root.layout.tsx"
        [.indexPage "./routes/root/page.tsx"]]]])).map (·.file) =
        [".react-router/layouts/root.layout.tsx", ".react-router/layouts/root.layout.tsx",
          "./routes/root/page.tsx"] := by
    simp [Node.layout, Node.route, Node.indexPage, Node.isLayout, Partition.directory,
      Partition.split, Partition.add, convert, convertEach, convertNode, resolve, hoist,
      notFoundRoute?, Entry.preorder_eq, Entry.layout, Entry.route, Entry.index]
  rw [hfiles]
  decide

end FileRoutes
