import FileRoutes.Proofs.Settled

/-!
# What a scan exhibits

Each file that the tree of a scan shows was found in some directory, or put there as a placeholder.
An **exhibit** is such a file with the directory that it belongs to: the names that lead there from
the routes directory say what its address is, however the tree is built.

Main results: the exhibits are the live files of all listings (`Folder.found_exhibits_perm`), the
layouts around an exhibit are those of the directories on the way to it, in order
(`Folder.layouts_sublist_around`), and each exhibit is shown by one entry of the configuration and
each entry shows one exhibit (`Folder.rel_isShownBy_convert`).
-/

namespace FileRoutes

/-! ### What a listing means -/

/-- The segments of the address of a directory, by the names that lead to it. A private directory
adds none. -/
def addressSegments (folders : List String) : List String :=
  (folders.filter fun name => !isPrivate name).map fun name => (folderSegment name).1

theorem addressSegments_cons (name : String) (folders : List String) :
    addressSegments (name :: folders) =
      (if isPrivate name then [] else [(folderSegment name).1]) ++ addressSegments folders := by
  cases h : isPrivate name <;> simp [addressSegments, h]

section

variable (ignored : IgnoreSet) (path : String)

/-- What an entry means to the directory at `path`: something only if it is a file that is not
passed over. -/
def liveRole? (e : Listed) : Option Convention :=
  if e.isDirectory || ignored.ignoresFile (entryPath path e.name) then none
  else Convention.ofFileName? e.name

/-- The layout of the directory at `path` that lists these entries, by its name: the last one that
is not passed over. -/
def effectiveLayout? (listing : List Listed) : Option String :=
  ((listing.filter fun e => liveRole? ignored path e = some .layout).getLast?).map (·.name)

/-- The page or not-found page that an entry is, with its name. -/
def livePage? (e : Listed) : Option (Convention × String) :=
  match liveRole? ignored path e with
  | some .page => some (.page, e.name)
  | some .notFound => some (.notFound, e.name)
  | _ => none

/-- The files that the directory at `path` shows: its layout, and its pages and not-found pages. -/
def liveFiles (listing : List Listed) : List (Convention × String) :=
  (effectiveLayout? ignored path listing).toList.map (Convention.layout, ·) ++
    listing.filterMap (livePage? ignored path)

end

variable {ignored : IgnoreSet} {path : String}

/-- A directory means nothing itself. -/
@[simp] theorem livePage?_directory (name : String) :
    livePage? ignored path ⟨name, true⟩ = none := by
  simp [livePage?, liveRole?]

/-- Live pages are pages and not-found pages. -/
theorem role_of_livePage? {e : Listed} {page : Convention × String}
    (h : livePage? ignored path e = some page) : page.1 = .page ∨ page.1 = .notFound := by
  unfold livePage? at h
  split at h
  · obtain rfl := Option.some.inj h
    exact .inl rfl
  · obtain rfl := Option.some.inj h
    exact .inr rfl
  · cases h

/-- The node of a page or not-found page of the directory at `path`. -/
def pageNode (path : String) (page : Convention × String) : Node :=
  if page.1 = .page then .indexPage (fileReference (entryPath path page.2))
  else .notFound (fileReference (entryPath path page.2))

/-- The nodes found first are those of the first entry, if it is a live page or not-found page. -/
theorem Folder.found_entry (reference : String → String) (e : Listed) (rest : Folder) :
    (Folder.entry e rest).found ignored reference path =
      (livePage? ignored path e).toList.map (pageNode path) ++
        rest.found ignored reference path := by
  rw [Folder.found]
  congr 1
  obtain ⟨name, isDirectory⟩ := e
  cases isDirectory with
  | true =>
    rw [livePage?_directory]
    by_cases h : ignored.ignoresDirectory (entryPath path name) <;>
      simp [Scan.finding?, IgnoreSet.ignores, h]
  | false =>
    by_cases h : ignored.ignoresFile (entryPath path name)
    · simp [Scan.finding?, IgnoreSet.ignores, livePage?, liveRole?, h]
    · cases hrole : Convention.ofFileName? name with
      | none => simp [Scan.finding?, Scan.findingOfFile?, IgnoreSet.ignores, livePage?, liveRole?,
          h, hrole]
      | some role =>
        cases role <;> simp [Scan.finding?, Scan.findingOfFile?, IgnoreSet.ignores, livePage?,
          liveRole?, h, hrole, pageNode]

/-- The paths of the layouts found. -/
def Scan.layoutPaths (findings : List Scan.Finding) : List String :=
  findings.filterMap fun
    | .layout path => some path
    | _ => none

/-- The last of the layouts found counts. -/
theorem Scan.layoutPath?_eq (findings : List Scan.Finding) :
    layoutPath? findings = (layoutPaths findings).getLast? := rfl

/-- The layouts that are found in a directory are its live layouts. -/
theorem layoutPaths_findings (listing : List Listed) :
    Scan.layoutPaths (listing.filterMap (Scan.finding? ignored path)) =
      (listing.filter fun e => liveRole? ignored path e = some .layout).map
        fun e => entryPath path e.name := by
  rw [Scan.layoutPaths, List.filterMap_filterMap, ← List.filterMap_eq_filter, List.map_filterMap]
  refine List.filterMap_congr fun e _ => ?_
  obtain ⟨name, isDirectory⟩ := e
  cases isDirectory with
  | true =>
    by_cases h : ignored.ignoresDirectory (entryPath path name) <;>
      simp [Scan.finding?, IgnoreSet.ignores, liveRole?, Option.guard, h]
  | false =>
    by_cases h : ignored.ignoresFile (entryPath path name)
    · simp [Scan.finding?, IgnoreSet.ignores, liveRole?, Option.guard, h]
    · cases hrole : Convention.ofFileName? name with
      | none => simp [Scan.finding?, Scan.findingOfFile?, IgnoreSet.ignores, liveRole?,
          Option.guard, h, hrole]
      | some role =>
        cases role <;> simp [Scan.finding?, Scan.findingOfFile?, IgnoreSet.ignores, liveRole?,
          Option.guard, h, hrole]

/-- The scan wraps a directory in its effective layout. -/
theorem layoutPath?_findings (listing : List Listed) :
    Scan.layoutPath? (listing.filterMap (Scan.finding? ignored path)) =
      (effectiveLayout? ignored path listing).map (entryPath path) := by
  rw [Scan.layoutPath?_eq, layoutPaths_findings, effectiveLayout?, List.getLast?_map,
    Option.map_map]
  rfl

/-! ### Exhibits -/

/-- A file that the tree of a scan shows, with the directory that it belongs to. -/
structure Exhibit where
  /-- The names that lead to the directory from the routes directory. -/
  folders : List String
  /-- What the file means to the directory. -/
  role : Convention
  /-- The name of the file: none for a placeholder. -/
  name? : Option String
  /-- The references of the layouts around it, outermost first. -/
  around : List String

namespace Exhibit

/-- In a directory called `name`. -/
def inFolder (name : String) (x : Exhibit) : Exhibit :=
  { x with folders := name :: x.folders }

/-- Inside the layout `file`. -/
def within (file : String) (x : Exhibit) : Exhibit :=
  { x with around := file :: x.around }

/-- What was found: not a placeholder. -/
def found? (x : Exhibit) : Option (List String × Convention × String) :=
  x.name?.map fun name => (x.folders, x.role, name)

theorem found?_eq_some_iff {x : Exhibit} {folders : List String} {role : Convention}
    {name : String} :
    x.found? = some (folders, role, name) ↔
      x.folders = folders ∧ x.role = role ∧ x.name? = some name := by
  cases hname : x.name? <;> simp [found?, hname]

variable (reference : String → String) (path : String)

/-- The reference of the file, where the routes directory is at `path`. -/
def file (x : Exhibit) : String :=
  match x.name? with
  | some name => fileReference (pathBelow path (x.folders ++ [name]))
  | none => reference (pathBelow path x.folders)

/-- The segments of its address: a not-found page takes what is left of the address. -/
def segments (x : Exhibit) : List String :=
  addressSegments x.folders ++ if x.role = .notFound then ["*"] else []

/-- The exhibit as the tree shows it. -/
def shown (x : Exhibit) : Shown :=
  ⟨x.segments, x.around, x.file reference path, x.role = .page, none⟩

variable {reference path}

theorem shown_inFolder (name : String) (x : Exhibit) :
    (x.inFolder name).shown reference path =
      (x.shown reference (entryPath path name)).below
        (if isPrivate name then [] else [(folderSegment name).1]) := by
  obtain ⟨folders, role, name?, around⟩ := x
  cases name? <;> cases role <;>
    simp [inFolder, shown, segments, file, Shown.below, addressSegments_cons]

theorem shown_within (layout : String) (x : Exhibit) :
    (x.within layout).shown reference path = (x.shown reference path).within layout := rfl

end Exhibit

/-! ### The exhibits of a folder -/

namespace Folder

section

variable (ignored : IgnoreSet) (reference : String → String)

/-- The exhibits of a directory from those that were found in it: inside its layout, if it is given
one, which is an exhibit itself. -/
def closeExhibits (path : String) (F : Folder) (found : List Exhibit) : List Exhibit :=
  match effectiveLayout? ignored path F.listing with
  | some name =>
    ⟨[], .layout, some name, []⟩ :: found.map (.within (fileReference (entryPath path name)))
  | none =>
    if Scan.needsPlaceholder (Node.sortSiblings (F.found ignored reference path)) then
      ⟨[], .layout, none, []⟩ :: found.map (.within (reference path))
    else found

/-- What is exhibited in the directory at `path`, without its own layout. -/
def foundExhibits : (path : String) → Folder → List Exhibit
  | _, nil => []
  | path, entry e rest =>
    ((livePage? ignored path e).toList.map fun page => ⟨[], page.1, some page.2, []⟩) ++
      foundExhibits path rest
  | path, directory name inside rest =>
    (inside.closeExhibits ignored reference (entryPath path name)
      (foundExhibits (entryPath path name) inside)).map (.inFolder name) ++ foundExhibits path rest

/-- The exhibits of the directory at `path`. -/
def exhibits (path : String) (F : Folder) : List Exhibit :=
  F.closeExhibits ignored reference path (F.foundExhibits ignored reference path)

end

variable {reference : String → String} {F : Folder}

/-! ### The tree shows the exhibits -/

open Node in
/-- A segment that a layout carries aside, a directory shows what its children show. -/
private theorem anonymous_shownInDirectory (own : String) (nodes : List Node) :
    (shownInDirectory own nodes).map Shown.anonymous = (shownAll nodes).map Shown.anonymous := by
  induction nodes with
  | nil => simp
  | cons n rest ih =>
    rw [shownInDirectory]
    split
    · next h =>
      simp [shown_of_layout h, Shown.anonymous]
    · simp [ih]

/-- Closing a directory gives it the same layout in the tree and among the exhibits. -/
private theorem anonymous_close {found : List Node} {exhibited : List Exhibit}
    (hfound : found = F.found ignored reference path)
    (h : ((Node.shownAll found).map Shown.anonymous).Perm
      (exhibited.map (Exhibit.shown reference path))) :
    ((Node.shownAll (F.close ignored reference path found)).map Shown.anonymous).Perm
      ((F.closeExhibits ignored reference path exhibited).map (Exhibit.shown reference path)) := by
  -- siblings are put in order before they are wrapped, which changes nothing here
  have hsorted : ((Node.shownAll (Node.sortSiblings found)).map Shown.anonymous).Perm
      (exhibited.map (Exhibit.shown reference path)) :=
    ((Node.shownAll_perm (Node.sortSiblings_perm found)).map _).trans h
  have hinside : ∀ layout : String,
      ((Node.shownAll [.layout layout (Node.sortSiblings found)]).map Shown.anonymous).Perm
        (⟨[], [], layout, false, none⟩ ::
          (exhibited.map (.within layout)).map (Exhibit.shown reference path)) := fun layout => by
    rw [Node.shownAll_cons, Node.shown_of_layout rfl, Node.shownAll_nil, List.append_nil]
    simp only [Node.layout, List.map_cons, List.map_map]
    refine List.Perm.cons _ ?_
    simpa [Function.comp_def, Shown.anonymous, Shown.within, Exhibit.shown_within] using
      hsorted.map (Shown.within layout)
  unfold close wrapper? closeExhibits findings
  rw [layoutPath?_findings]
  cases effectiveLayout? ignored path F.listing with
  | some name => exact hinside _
  | none =>
    rw [← hfound]
    simp only [Option.map_none]
    split
    · exact hinside _
    · exact hsorted

/-- What the tree shows of what was found in a directory. -/
private theorem anonymous_found :
    ((Node.shownAll (F.found ignored reference path)).map Shown.anonymous).Perm
      ((F.foundExhibits ignored reference path).map (Exhibit.shown reference path)) := by
  induction F generalizing path with
  | nil => simp [found, foundExhibits]
  | entry e rest ih =>
    rw [found_entry, foundExhibits, Node.shownAll_append, List.map_append, List.map_append]
    refine List.Perm.append ?_ ih
    cases hpage : livePage? ignored path e with
    | none => simp
    | some page =>
      obtain ⟨role, name⟩ := page
      obtain rfl | rfl := role_of_livePage? hpage
      · simp [pageNode, Node.shown_of_page, Node.indexPage, Exhibit.shown, Exhibit.segments,
          Exhibit.file, Shown.anonymous, addressSegments]
      · simp [pageNode, Node.shown_of_notFound, Node.notFound, Exhibit.shown, Exhibit.segments,
          Exhibit.file, Shown.anonymous, addressSegments]
  | directory name inside rest ihinside ihrest =>
    rw [found, foundExhibits, Node.shownAll_append, List.map_append, List.map_append]
    refine List.Perm.append ?_ ihrest
    have hinside : ((Node.shownAll (inside.nodes ignored reference (entryPath path name))).map
        Shown.anonymous).Perm ((inside.exhibits ignored reference (entryPath path name)).map
          (Exhibit.shown reference (entryPath path name))) :=
      anonymous_close rfl ihinside
    unfold nodes exhibits at hinside
    rw [List.map_map]
    -- a private directory adds its nodes only, any other puts its segment above them
    unfold Scan.nodesOfDirectory
    split
    · next hprivate =>
      simpa [Function.comp_def, Exhibit.shown_inFolder, hprivate, Shown.below] using hinside
    · next hprivate =>
      rw [Node.shownAll_cons, Node.shownAll_nil, List.append_nil, Node.shown_of_route rfl]
      have hbelow := hinside.map (Shown.below [(folderSegment name).1])
      rw [← anonymous_shownInDirectory (folderSegment name).1] at hbelow
      simpa [Function.comp_def, Exhibit.shown_inFolder, hprivate, Shown.below, Shown.anonymous,
        Node.folder, Node.route] using hbelow

/-- **The tree of a scan shows its exhibits**, segments carried by layouts aside. -/
theorem anonymous_nodes_perm :
    ((Node.shownAll (F.nodes ignored reference path)).map Shown.anonymous).Perm
      ((F.exhibits ignored reference path).map (Exhibit.shown reference path)) :=
  anonymous_close rfl anonymous_found

/-! ### The live files of all listings -/

/-- The live files of a listing with the directory that it is from, where the routes directory is
at `path`. -/
def liveIn (ignored : IgnoreSet) (path : String) (d : List String × List Listed) :
    List (List String × Convention × String) :=
  (liveFiles ignored (pathBelow path d.1) d.2).map fun file => (d.1, file)

private theorem found?_within (layout : String) (xs : List Exhibit) :
    (xs.map (Exhibit.within layout)).filterMap Exhibit.found? = xs.filterMap Exhibit.found? := by
  rw [List.filterMap_map]
  rfl

private theorem found?_inFolder (name : String) (xs : List Exhibit) :
    (xs.map (Exhibit.inFolder name)).filterMap Exhibit.found? =
      (xs.filterMap Exhibit.found?).map fun x => (name :: x.1, x.2) := by
  rw [List.filterMap_map, List.map_filterMap]
  congr 1
  funext x
  cases hx : x.name? <;> simp [Exhibit.found?, Exhibit.inFolder, hx]

/-- Closing a directory adds its effective layout to what was found. -/
private theorem found?_close {exhibited : List Exhibit} :
    (F.closeExhibits ignored reference path exhibited).filterMap Exhibit.found? =
      ((effectiveLayout? ignored path F.listing).toList.map
        fun name => ([], Convention.layout, name)) ++ exhibited.filterMap Exhibit.found? := by
  unfold closeExhibits
  cases effectiveLayout? ignored path F.listing with
  | some name =>
    simp only
    rw [List.filterMap_cons, found?_within]
    rfl
  | none =>
    simp only
    split
    · rw [List.filterMap_cons, found?_within]
      rfl
    · rfl

/-- What was found in a directory: its own pages and the live files of all listings below. -/
private theorem found?_foundExhibits_perm :
    ((F.foundExhibits ignored reference path).filterMap Exhibit.found?).Perm
      ((F.listing.filterMap (livePage? ignored path)).map (fun page => ([], page)) ++
        F.foldersBelow.flatMap (liveIn ignored path)) := by
  induction F generalizing path with
  | nil => simp [foundExhibits, listing, foldersBelow]
  | entry e rest ih =>
    rw [foundExhibits, List.filterMap_append, listing, foldersBelow]
    cases hpage : livePage? ignored path e with
    | none => simpa [hpage] using ih
    | some page => simpa [hpage, List.filterMap_cons, Exhibit.found?] using ih
  | directory name inside rest ihinside ihrest =>
    rw [foundExhibits, List.filterMap_append, found?_inFolder, found?_close, listing, foldersBelow,
      List.filterMap_cons_none (livePage?_directory name), List.flatMap_append]
    have hbelow : (((effectiveLayout? ignored (entryPath path name) inside.listing).toList.map
          fun layout => ([], Convention.layout, layout)) ++
        (inside.foundExhibits ignored reference (entryPath path name)).filterMap
          Exhibit.found?).Perm
        ((([], inside.listing) :: inside.foldersBelow).flatMap
          (liveIn ignored (entryPath path name))) := by
      rw [List.flatMap_cons]
      refine (ihinside.append_left _).trans ?_
      simp [liveIn, liveFiles, Function.comp_def]
    have hinside := hbelow.map fun x => (name :: x.1, x.2)
    rw [List.map_flatMap] at hinside
    -- seen from here, the name of the directory stands in front of all names inside it
    have hmap : (([], inside.listing) :: inside.foldersBelow).flatMap (fun d =>
          (liveIn ignored (entryPath path name) d).map fun x => (name :: x.1, x.2)) =
        ((([], inside.listing) :: inside.foldersBelow).map fun d => (name :: d.1, d.2)).flatMap
          (liveIn ignored path) := by
      rw [List.flatMap_map]
      simp [liveIn, Function.comp_def]
    rw [hmap] at hinside
    refine (hinside.append ihrest).trans ?_
    rw [← List.append_assoc, ← List.append_assoc]
    exact List.perm_append_comm.append_right _

/-- **The exhibits found are the live files of all listings**: the effective layout, the pages and
the not-found pages of each. -/
theorem found_exhibits_perm :
    ((F.exhibits ignored reference path).filterMap Exhibit.found?).Perm
      (F.folders.flatMap (liveIn ignored path)) := by
  rw [exhibits, found?_close, folders, List.flatMap_cons]
  refine (found?_foundExhibits_perm.append_left _).trans ?_
  simp [liveIn, liveFiles, Function.comp_def]

/-- What is put into a directory without being found there are layouts. -/
theorem role_of_name?_eq_none {x : Exhibit} (hx : x ∈ F.exhibits ignored reference path)
    (hnone : x.name? = none) : x.role = .layout := by
  have hclose : ∀ {path : String} {F : Folder} {exhibited : List Exhibit},
      (∀ y ∈ exhibited, y.name? = none → y.role = .layout) →
      ∀ y ∈ F.closeExhibits ignored reference path exhibited, y.name? = none →
        y.role = .layout := by
    intro path F exhibited h y hy hnone
    have hwithin : ∀ file, y ∈ exhibited.map (Exhibit.within file) → y.role = .layout := by
      intro file hy
      obtain ⟨z, hz, rfl⟩ := List.mem_map.1 hy
      exact h z hz hnone
    cases hlayout : effectiveLayout? ignored path F.listing with
    | some name =>
      rw [closeExhibits, hlayout] at hy
      rcases List.mem_cons.1 hy with rfl | hy
      · rfl
      · exact hwithin _ hy
    | none =>
      rw [closeExhibits, hlayout] at hy
      by_cases hneeds : Scan.needsPlaceholder (Node.sortSiblings (F.found ignored reference path))
      · rw [if_pos hneeds] at hy
        rcases List.mem_cons.1 hy with rfl | hy
        · rfl
        · exact hwithin _ hy
      · rw [if_neg hneeds] at hy
        exact h y hy hnone
  have hfound : ∀ y ∈ F.foundExhibits ignored reference path, y.name? = none →
      y.role = .layout := by
    clear hx
    induction F generalizing path with
    | nil => simp [foundExhibits]
    | entry e rest ih =>
      rw [foundExhibits, List.forall_mem_append, List.forall_mem_map]
      exact ⟨fun _ _ => nofun, ih⟩
    | directory name inside rest ihinside ihrest =>
      rw [foundExhibits, List.forall_mem_append, List.forall_mem_map]
      exact ⟨hclose ihinside, ihrest⟩
  exact hclose hfound x hx hnone

/-! ### The layouts around an exhibit -/

section

variable {effective : List String → Option String}

/-- Closing a directory puts its effective layout around all that was found in it. -/
private theorem sublist_around_close {exhibited : List Exhibit}
    (hhere : effective [] = (effectiveLayout? ignored path F.listing).map fun name =>
      fileReference (pathBelow path [name]))
    (h : ∀ x ∈ exhibited, x.role ≠ .layout →
      (x.folders.inits.tail.filterMap effective).Sublist x.around) :
    ∀ x ∈ F.closeExhibits ignored reference path exhibited, x.role ≠ .layout →
      (x.folders.inits.filterMap effective).Sublist x.around := by
  have hinits : ∀ folders : List String, folders.inits = [] :: folders.inits.tail := by
    intro folders
    cases folders <;> simp
  intro x hx hrole
  -- the directory itself is the first on the way, and closing it puts its layout first
  rw [hinits, List.filterMap_cons, hhere]
  unfold closeExhibits at hx
  cases hlayout : effectiveLayout? ignored path F.listing with
  | some name =>
    rw [hlayout] at hx
    rcases List.mem_cons.1 hx with rfl | hx
    · simp at hrole
    · obtain ⟨y, hy, rfl⟩ := List.mem_map.1 hx
      exact (h y hy hrole).cons_cons _
  | none =>
    simp only [hlayout] at hx
    split at hx
    · rcases List.mem_cons.1 hx with rfl | hx
      · simp at hrole
      · obtain ⟨y, hy, rfl⟩ := List.mem_map.1 hx
        exact (h y hy hrole).cons _
    · exact h x hx hrole

private theorem sublist_around_found
    (h : ∀ d ∈ F.foldersBelow, effective d.1 =
      (effectiveLayout? ignored (pathBelow path d.1) d.2).map fun name =>
        fileReference (pathBelow path (d.1 ++ [name]))) :
    ∀ x ∈ F.foundExhibits ignored reference path, x.role ≠ .layout →
      (x.folders.inits.tail.filterMap effective).Sublist x.around := by
  induction F generalizing path effective with
  | nil => simp [foundExhibits]
  | entry e rest ih =>
    rw [foundExhibits, List.forall_mem_append, List.forall_mem_map]
    exact ⟨by simp, ih h⟩
  | directory name inside rest ihinside ihrest =>
    rw [foldersBelow, List.forall_mem_append, List.forall_mem_map, List.forall_mem_cons] at h
    obtain ⟨⟨hhere, hinside⟩, hrest⟩ := h
    rw [foundExhibits, List.forall_mem_append, List.forall_mem_map]
    refine ⟨fun x hx hrole => ?_, ihrest hrest⟩
    -- the directories inside are reached by way of this one
    have hfound := @ihinside (entryPath path name) (fun folders => effective (name :: folders))
      hinside
    have hbelow := sublist_around_close hhere hfound x hx hrole
    simpa [Exhibit.inFolder, List.filterMap_map, Function.comp_def] using hbelow

/-- **Authored layouts stay around what is below them**: the effective layouts of the directories
on the way to a page or not-found page are around it, outermost first. -/
theorem layouts_sublist_around
    (h : ∀ d ∈ F.folders, effective d.1 =
      (effectiveLayout? ignored (pathBelow path d.1) d.2).map fun name =>
        fileReference (pathBelow path (d.1 ++ [name]))) :
    ∀ x ∈ F.exhibits ignored reference path, x.role ≠ .layout →
      (x.folders.inits.filterMap effective).Sublist x.around := by
  rw [folders, List.forall_mem_cons] at h
  exact sublist_around_close h.1 (sublist_around_found h.2)

end

end Folder

/-! ### The configuration shows the exhibits -/

/-- The entry shows the exhibit: at its address, inside its layouts at least. -/
structure Exhibit.IsShownBy (reference : String → String) (path : String) (x : Exhibit)
    (p : Placed) : Prop where
  address : p.address = "/".intercalate x.segments
  around : x.around.Sublist p.files
  file : p.entry.file = x.file reference path
  isIndex : p.entry.isIndex = true ↔ x.role = .page

/-- **The configuration of a scan shows its exhibits**, one entry for each. -/
theorem Folder.rel_isShownBy_convert {F : Folder} {reference : String → String}
    (h : F.Names (· ≠ "")) :
    Multiset.Rel (Exhibit.IsShownBy reference path)
      (F.exhibits ignored reference path : Multiset Exhibit)
      (Entry.placedAll (convert (F.nodes ignored reference path)) : Multiset Placed) := by
  have hshows := showExactly_convert (F.nodes ignored reference path) (settled_nodes h)
  have hanonymous : Multiset.Rel (fun (x : Shown) (p : Placed) =>
      p.address = "/".intercalate x.segments ∧ x.layouts.Sublist p.files ∧
        p.entry.file = x.file ∧ p.entry.isIndex = x.isIndex)
      ((Node.shownAll (F.nodes ignored reference path)).map Shown.anonymous : Multiset Shown)
      (Entry.placedAll (convert (F.nodes ignored reference path)) : Multiset Placed) := by
    rw [← Multiset.map_coe, Multiset.rel_map_left]
    exact hshows.mono fun x _ p _ hx => ⟨hx.address.1.symm, hx.layouts, hx.file, hx.isIndex⟩
  rw [Multiset.coe_eq_coe.2 anonymous_nodes_perm, ← Multiset.map_coe, Multiset.rel_map_left]
    at hanonymous
  refine hanonymous.mono fun x _ p _ ⟨haddress, haround, hfile, hindex⟩ => ?_
  exact ⟨haddress, haround, hfile, by simp [hindex, Exhibit.shown]⟩

end FileRoutes
