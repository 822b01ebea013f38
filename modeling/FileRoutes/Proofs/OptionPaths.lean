import FileRoutes.Proofs.References

/-!
# The paths of the options and the paths of a build

The options tell where the routes directory and the layout cache are. A build finds its own way
there: it makes slashes of the backslashes in the routes directory and cuts off what is in front of
it and slashes at its ends, and it cuts slashes off at the end of the cache directory. What is cut
off changes no names (`namesOf_eq_append_startDirectory`), so the paths are the same, unless a slash
that makes a path absolute is among it, or a backslash becomes a slash.

The reference of a placeholder is put together as a text that starts with the cache directory. It is
the path of the file seen from the root (`Options.join_reference`), unless there is nothing before
its slash, which then makes it absolute.

Main result: `Options.paths_agree_iff`.
-/

namespace FileRoutes

open Job

/-! ### Spelling -/

namespace Path

variable {p q base : Path} {text other : String}

/-- Paths that lead to one location are absolute or relative together. -/
theorem isAbsolute_eq_of_location_eq (h : p.location = q.location) :
    p.isAbsolute = q.isAbsolute :=
  congrArg Location.absolute h

/-- Only an absolute path leads to the root. -/
theorem isAbsolute_of_location_eq {names : List String} (h : p.location = ⟨true, names⟩) :
    p.isAbsolute = true :=
  congrArg Location.absolute h

/-- A `.` in front of a relative path is a component. -/
private theorem components_eq (p : Path) :
    p.components = (if p.isAbsolute = false ∧ p.names.head? = some "." then ["."] else []) ++
      p.location.names := by
  unfold components location
  cases habsolute : p.isAbsolute with
  | true => simp
  | false =>
    cases hnames : p.names with
    | nil => simp
    | cons first rest =>
      by_cases hfirst : first = "."
      · simp [hfirst]
      · simp [hfirst]

/-- Paths are spelled alike if they lead to one location, with a `.` in front of both or of none. -/
theorem spelledAlike_iff : p.SpelledAlike q ↔ p.location = q.location ∧
    (p.isAbsolute = false → (p.names.head? = some "." ↔ q.names.head? = some ".")) := by
  constructor
  · intro h
    have hlocation := location_eq_of_spelledAlike h
    refine ⟨hlocation, fun habsolute => ?_⟩
    have hcomponents := h.2
    rw [components_eq, components_eq, hlocation, List.append_left_inj, ← h.1] at hcomponents
    simp only [habsolute, true_and] at hcomponents
    split at hcomponents <;> split at hcomponents <;> simp_all
  · rintro ⟨hlocation, hdot⟩
    have habsolute := isAbsolute_eq_of_location_eq hlocation
    refine ⟨habsolute, ?_⟩
    rw [components_eq, components_eq, hlocation, ← habsolute]
    cases hp : p.isAbsolute with
    | true => simp
    | false => simp [hdot hp]

/-- Absolute paths with the same names are spelled alike, and so are relative ones. -/
theorem SpelledAlike.of_names (habsolute : p.isAbsolute = q.isAbsolute)
    (hnames : p.names = q.names) : p.SpelledAlike q :=
  spelledAlike_iff.2 ⟨by rw [location, location, habsolute, hnames], fun _ => by rw [hnames]⟩

/-- Texts that are absolute or relative together, with the same names, are joined alike. -/
theorem SpelledAlike.join (habsolute : isAbsolute ⟨text⟩ = isAbsolute ⟨other⟩)
    (hnames : namesOf text = namesOf other) : (base.join text).SpelledAlike (base.join other) := by
  cases htext : isAbsolute ⟨text⟩ with
  | true =>
    rw [join_of_isAbsolute htext, join_of_isAbsolute (habsolute ▸ htext)]
    exact .of_names habsolute hnames
  | false =>
    have hother : isAbsolute ⟨other⟩ = false := habsolute ▸ htext
    refine .of_names (isAbsolute_eq_of_location_eq ?_)
      (by rw [names_join base htext, names_join base hother, hnames])
    rw [location_join base htext, location_join base hother, hnames]

/-- Absolute paths that lead to one location are spelled alike. -/
theorem SpelledAlike.of_isAbsolute (habsolute : p.isAbsolute = true)
    (hlocation : p.location = q.location) : p.SpelledAlike q :=
  spelledAlike_iff.2 ⟨hlocation, fun hrelative => by simp [habsolute] at hrelative⟩

/-- What is put after a text leaves its first character as it is. -/
theorem isAbsolute_append (hne : text ≠ "") :
    isAbsolute ⟨text ++ other⟩ = isAbsolute ⟨text⟩ := by
  obtain ⟨c, rest, hchars⟩ := List.exists_cons_of_ne_nil
    (fun hnil => hne (String.toList_inj.1 hnil) : text.toList ≠ [])
  simp [isAbsolute, hchars, List.isPrefixOf]

/-- Joining to a path that was joined is joining both texts with a slash between them. -/
theorem join_join {directory name : String} (hne : directory ≠ "")
    (hlast : directory.toList.getLast? ≠ some '/') (hname : isAbsolute ⟨name⟩ = false) :
    (base.join directory).join name = base.join (directory ++ ("/" ++ name)) := by
  obtain ⟨front, hfront⟩ : ∃ front : String, ∀ other,
      isAbsolute ⟨other⟩ = isAbsolute ⟨directory⟩ → base.join other = ⟨front ++ other⟩ := by
    unfold join
    cases isAbsolute ⟨directory⟩ with
    | true => exact ⟨"", fun other hother => by simp [hother]⟩
    | false =>
      cases base.text.isEmpty || base.endsInSlash with
      | true => exact ⟨base.text, fun other hother => by simp [hother]⟩
      | false => exact ⟨base.text ++ "/", fun other hother => by simp [hother]⟩
  rw [hfront directory rfl, hfront _ (isAbsolute_append hne)]
  obtain ⟨init, c, hchars⟩ := (List.eq_nil_or_concat directory.toList).resolve_left
    fun hnil => hne (String.toList_inj.1 hnil)
  have hopen : ((front ++ directory).isEmpty || endsInSlash ⟨front ++ directory⟩) = false := by
    rw [Bool.or_eq_false_iff]
    constructor
    · simp [hne]
    · have hc : c ≠ '/' := by simpa [hchars] using hlast
      refine Bool.eq_false_iff.2 fun hends => ?_
      obtain ⟨text, htext⟩ := exists_of_endsInSlash hends
      have hsame := congrArg (fun text : String => text.toList.getLast?) htext
      simp [hchars] at hsame
      exact hc hsame
  simp only [join, hname, hopen, Bool.false_eq_true, if_false, String.append_assoc]

/-- The characters of a text other than slashes are those of its names. -/
theorem exists_mem_namesOf_iff {c : Char} (hc : c ≠ '/') :
    (∃ name ∈ namesOf text, c ∈ name.toList) ↔ c ∈ text.toList := by
  have hparts : ∀ chars : List Char, (∃ part ∈ chars.splitOn '/', c ∈ part) ↔ c ∈ chars := by
    intro chars
    induction chars with
    | nil => simp
    | cons d rest ih =>
      rw [List.splitOn_cons_eq_if_modifyHead, List.mem_cons, ← ih]
      split
      · next hd =>
        obtain rfl : d = '/' := by simpa using hd
        simp [hc]
      · cases hrest : rest.splitOn '/' with
        | nil => exact absurd hrest (List.splitOn_ne_nil '/' rest)
        | cons first others => simp [or_assoc]
  rw [← hparts]
  simp only [namesOf, List.mem_map, List.mem_filter, Bool.not_eq_true', List.isEmpty_eq_false_iff]
  constructor
  · rintro ⟨_, ⟨part, ⟨hpart, -⟩, rfl⟩, hmem⟩
    exact ⟨part, hpart, by simpa using hmem⟩
  · rintro ⟨part, hpart, hmem⟩
    exact ⟨_, ⟨part, ⟨hpart, List.ne_nil_of_mem hmem⟩, rfl⟩, by simpa using hmem⟩

/-- A path is relative if its text begins with no slash. -/
theorem isAbsolute_eq_false_iff : p.isAbsolute = false ↔ p.text.toList.head? ≠ some '/' := by
  unfold isAbsolute
  cases p.text.toList with
  | nil => simp
  | cons c rest => simp [List.isPrefixOf, eq_comm (a := '/')]

/-- A relative path has names, unless it is empty. -/
theorem names_ne_nil (hne : p.text ≠ "") (h : p.isAbsolute = false) : p.names ≠ [] := by
  obtain ⟨c, rest, hchars⟩ := List.exists_cons_of_ne_nil
    (fun hnil => hne (String.toList_inj.1 hnil) : p.text.toList ≠ [])
  have hc : c ≠ '/' := by simpa [hchars] using isAbsolute_eq_false_iff.1 h
  obtain ⟨name, hname, -⟩ := (exists_mem_namesOf_iff hc).2 (hchars ▸ List.mem_cons_self)
  exact List.ne_nil_of_mem hname

/-- Slashes at the end change no names. -/
theorem namesOf_dropEndWhile (chars : List Char) :
    namesOf (String.ofList (Text.dropEndWhile Text.isSlash chars)) =
      namesOf (String.ofList chars) := by
  induction chars using List.reverseRecOn with
  | nil => rfl
  | append_singleton chars c ih =>
    by_cases hc : c = '/'
    · have htext : String.ofList (chars ++ [c]) = String.ofList chars ++ "/" ++ "" :=
        String.toList_inj.1 (by simp [hc])
      rw [Text.dropEndWhile_append_of_pos chars (by simp [Text.isSlash, hc]), ih, htext,
        namesOf_append_slash, namesOf_empty, List.append_nil]
    · rw [Text.dropEndWhile_append_of_neg chars (by simp [Text.isSlash, hc])]

/-- Slashes in front change no names. -/
theorem namesOf_dropWhile (chars : List Char) :
    namesOf (String.ofList (chars.dropWhile Text.isSlash)) = namesOf (String.ofList chars) := by
  induction chars with
  | nil => rfl
  | cons c chars ih =>
    by_cases hc : c = '/'
    · have htext : String.ofList (c :: chars) = "" ++ "/" ++ String.ofList chars :=
        String.toList_inj.1 (by simp [hc])
      rw [List.dropWhile_cons_of_pos (by simp [Text.isSlash, hc]), ih, htext,
        namesOf_append_slash, namesOf_empty, List.nil_append]
    · rw [List.dropWhile_cons_of_neg (by simp [Text.isSlash, hc])]

end Path

/-! ### The routes directory -/

/-- Cutting slashes off at both ends changes no names. -/
theorem namesOf_dropBothWhile (chars : List Char) :
    Path.namesOf (String.ofList (Text.dropBothWhile Text.isSlash chars)) =
      Path.namesOf (String.ofList chars) := by
  rw [Text.dropBothWhile, Path.namesOf_dropEndWhile, Path.namesOf_dropWhile]

/-- A text with slashes for its backslashes. -/
def slashed (text : String) : String :=
  String.ofList (text.toList.map fun c => if c = '\\' then '/' else c)

theorem backslash_not_mem_slashed (text : String) : '\\' ∉ (slashed text).toList := by
  simp only [slashed, String.toList_ofList, List.mem_map, not_exists, not_and]
  intro c _ hc
  split at hc
  · exact absurd hc (by decide)
  · next hne => exact hne hc

theorem slashed_of_not_mem {text : String} (h : '\\' ∉ text.toList) : slashed text = text := by
  have hsame : (text.toList.map fun c => if c = '\\' then '/' else c) = text.toList := by
    refine (List.map_congr_left fun c hc => if_neg ?_).trans (List.map_id _)
    rintro rfl
    exact h hc
  rw [slashed, hsame, String.ofList_toList]

/-- The routes directory as a build sees it: with slashes for backslashes, and without one `./` in
front and slashes at the ends. -/
theorem startDirectory_eq (routes : String) :
    startDirectory routes = String.ofList (Text.dropBothWhile Text.isSlash
      ((['.', '/'].isPrefixOf? (slashed routes).toList).getD (slashed routes).toList)) := by
  rw [slashed, String.toList_ofList, startDirectory]

/-- The routes directory as a build sees it holds no backslash. -/
theorem backslash_not_mem_startDirectory (routes : String) :
    '\\' ∉ (startDirectory routes).toList := by
  have hnone := backslash_not_mem_slashed routes
  rw [startDirectory_eq, ← Path.exists_mem_namesOf_iff (by decide), namesOf_dropBothWhile,
    Path.exists_mem_namesOf_iff (by decide), String.toList_ofList]
  cases hprefix : ['.', '/'].isPrefixOf? (slashed routes).toList with
  | none => exact hnone
  | some rest =>
    rw [← List.isPrefixOf?_eq_some_iff_append_eq.1 hprefix] at hnone
    exact fun hmem => hnone (List.mem_append_right _ hmem)

/-- Without a backslash, only a `./` in front is left out of the names of the routes directory. -/
theorem namesOf_eq_append_startDirectory {routes : String} (h : '\\' ∉ routes.toList) :
    Path.namesOf routes =
      (if ['.', '/'] <+: routes.toList then ["."] else []) ++
        Path.namesOf (startDirectory routes) := by
  rw [startDirectory_eq, slashed_of_not_mem h, namesOf_dropBothWhile]
  cases hprefix : ['.', '/'].isPrefixOf? routes.toList with
  | none =>
    have hnot : ¬ ['.', '/'] <+: routes.toList := by
      rintro ⟨rest, hrest⟩
      simp [List.isPrefixOf?_eq_some_iff_append_eq.2 hrest] at hprefix
    simp [hnot]
  | some rest =>
    have hrest := List.isPrefixOf?_eq_some_iff_append_eq.1 hprefix
    have htext : routes = "." ++ "/" ++ String.ofList rest :=
      String.toList_inj.1 (by simp [← hrest])
    rw [if_pos ⟨rest, hrest⟩, htext, Path.namesOf_append_slash,
      Path.namesOf_of_not_mem (by decide) (by decide)]
    rfl

namespace Options

variable {o : Options}

/-- The root of the application is the root of all absolute paths. -/
def AtTop (o : Options) : Prop :=
  o.root.location = ⟨true, []⟩

instance (o : Options) : Decidable o.AtTop :=
  inferInstanceAs (Decidable (_ = _))

/-- Without a backslash the routes directory has one location, unless its path is absolute. -/
theorem routesLocation_eq_iff (h : '\\' ∉ o.routes.toList) :
    o.routesLocation = o.routesPath.location ↔
      Path.isAbsolute ⟨o.routes⟩ = false ∨ o.AtTop := by
  have hnames : (Path.namesOf o.routes).filter (· ≠ ".") =
      (Path.namesOf (startDirectory o.routes)).filter (· ≠ ".") := by
    rw [namesOf_eq_append_startDirectory h]
    split <;> simp
  rw [routesLocation, Path.location_join o.root (isAbsolute_startDirectory o.routes), routesPath]
  cases hroutes : Path.isAbsolute ⟨o.routes⟩ with
  | false =>
    rw [Path.location_join o.root hroutes, hnames]
    simp
  | true =>
    rw [Path.join_of_isAbsolute hroutes, AtTop, ← hnames]
    cases hroot : o.root.location
    simp [Path.location, Path.names, hroutes]

/-- A routes directory that has one location holds no backslash, if the root holds none. -/
theorem backslash_not_mem_routes (hroot : '\\' ∉ o.root.text.toList)
    (h : o.routesLocation = o.routesPath.location) : '\\' ∉ o.routes.toList := by
  intro hmem
  obtain ⟨name, hname, hchar⟩ := (Path.exists_mem_namesOf_iff (by decide)).2 hmem
  have hdot : name ≠ "." := by
    rintro rfl
    exact absurd hchar (by decide)
  have hlocation : name ∈ o.routesPath.location.names := by
    rw [routesPath]
    cases hroutes : Path.isAbsolute ⟨o.routes⟩ with
    | false => simp [Path.location_join o.root hroutes, hname, hdot]
    | true => simp [Path.join_of_isAbsolute hroutes, Path.location, Path.names, hname, hdot]
  rw [← h, routesLocation, Path.location_join o.root (isAbsolute_startDirectory o.routes)]
    at hlocation
  rcases List.mem_append.1 hlocation with hbase | hbelow
  · have hrootname : name ∈ Path.namesOf o.root.text := (List.mem_filter.1 hbase).1
    exact hroot ((Path.exists_mem_namesOf_iff (by decide)).1 ⟨name, hrootname, hchar⟩)
  · exact backslash_not_mem_startDirectory o.routes
      ((Path.exists_mem_namesOf_iff (by decide)).1 ⟨name, (List.mem_filter.1 hbelow).1, hchar⟩)

/-- The routes directory is spelled alike where it has one location, except that from the empty root
a `./` in front counts. -/
theorem spelledAlike_routesPath (h : '\\' ∉ o.routes.toList)
    (hroutes : Path.isAbsolute ⟨o.routes⟩ = false ∨ o.AtTop)
    (hdot : o.root.text ≠ "" ∨ ¬ ['.', '/'] <+: o.routes.toList) :
    (o.root.join (startDirectory o.routes)).SpelledAlike o.routesPath := by
  have hlocation : (o.root.join (startDirectory o.routes)).location = o.routesPath.location :=
    (routesLocation_eq_iff h).2 hroutes
  refine Path.spelledAlike_iff.2 ⟨hlocation, fun habsolute => ?_⟩
  have hsame := Path.isAbsolute_eq_of_location_eq hlocation
  have hrelative : o.routesPath.isAbsolute = false := hsame.symm.trans habsolute
  have hroutes : Path.isAbsolute ⟨o.routes⟩ = false := by
    cases hroutes : Path.isAbsolute ⟨o.routes⟩ with
    | false => rfl
    | true =>
      rw [routesPath, Path.join_of_isAbsolute hroutes, hroutes] at hrelative
      exact absurd hrelative (by decide)
  rw [routesPath, Path.names_join o.root hroutes,
    Path.names_join o.root (isAbsolute_startDirectory o.routes)]
  rcases hdot with hroot | hprefix
  · -- the first name is that of the root
    have hne : o.root.names ≠ [] := Path.names_ne_nil hroot
      ((Path.isAbsolute_join hroot (isAbsolute_startDirectory o.routes)).symm.trans habsolute)
    rw [List.head?_append_of_ne_nil _ hne, List.head?_append_of_ne_nil _ hne]
  · rw [namesOf_eq_append_startDirectory h, if_neg hprefix, List.nil_append]

/-! ### The layout cache -/

/-- The directory of the cache is a beginning of what the options say. -/
private theorem directory_prefix (o : Options) :
    o.cache.directory.toList <+: o.layoutCache.toList := by
  have hdirectory : o.cache.directory.toList =
      Text.dropEndWhile Text.isSlash o.layoutCache.toList := String.toList_ofList
  rw [hdirectory, Text.dropEndWhile, ← List.reverse_suffix, List.reverse_reverse]
  exact List.dropWhile_suffix Text.isSlash

/-- The directory of the cache has the names that the options say. -/
private theorem namesOf_directory (o : Options) :
    Path.namesOf o.cache.directory = Path.namesOf o.layoutCache :=
  (Path.namesOf_dropEndWhile _).trans (by rw [String.ofList_toList])

/-- Where the directory of the cache is left empty, it is the root. -/
private theorem location_cachePath (hdirectory : o.cache.directory = "") :
    o.cache.path.location = o.root.location := by
  rw [LayoutCache.path, hdirectory]
  refine (Path.location_join o.root (by decide)).trans ?_
  simp

/-- The directory of the cache is left empty by slashes, unless the options say nothing. -/
private theorem location_layoutCachePath (hempty : o.layoutCache ≠ "")
    (hdirectory : o.cache.directory = "") : o.layoutCachePath.location = ⟨true, []⟩ := by
  have hnames : Path.namesOf o.layoutCache = [] := by
    rw [← o.namesOf_directory, hdirectory, Path.namesOf_empty]
  have habsolute : Path.isAbsolute ⟨o.layoutCache⟩ = true := by
    by_contra hrelative
    exact Path.names_ne_nil hempty (Bool.eq_false_iff.2 hrelative) hnames
  rw [layoutCachePath, Path.join_of_isAbsolute habsolute]
  simp [Path.location, Path.names, habsolute, hnames]

/-- The path of the cache is spelled as the options say, unless that is slashes only. -/
private theorem spelledAlike_cachePath
    (h : o.layoutCache = "" ∨ o.cache.directory ≠ "" ∨ o.AtTop) :
    o.cache.path.SpelledAlike o.layoutCachePath := by
  by_cases hempty : o.layoutCache = ""
  · have hdirectory : o.cache.directory = o.layoutCache := by
      rw [cache, hempty]
      rfl
    rw [LayoutCache.path, hdirectory]
    exact .refl _
  · by_cases hdirectory : o.cache.directory = ""
    · have htop : o.AtTop := by simpa [hempty, hdirectory] using h
      have hroot : o.cache.path.location = ⟨true, []⟩ := (location_cachePath hdirectory).trans htop
      exact .of_isAbsolute (Path.isAbsolute_of_location_eq hroot)
        (hroot.trans (location_layoutCachePath hempty hdirectory).symm)
    · refine .join ?_ o.namesOf_directory
      obtain ⟨more, hmore⟩ := o.directory_prefix
      have htext : o.layoutCache = o.cache.directory ++ String.ofList more :=
        String.toList_inj.1 (by simp [← hmore])
      rw [htext, Path.isAbsolute_append hdirectory]

/-- The cache is elsewhere otherwise. -/
private theorem of_location_cachePath_eq (h : o.cache.path.location = o.layoutCachePath.location) :
    o.layoutCache = "" ∨ o.cache.directory ≠ "" ∨ o.AtTop := by
  by_contra hnot
  simp only [not_or, not_not] at hnot
  obtain ⟨hempty, hdirectory, htop⟩ := hnot
  rw [location_cachePath hdirectory, location_layoutCachePath hempty hdirectory] at h
  exact htop h

/-- The reference of a placeholder is the path of its file seen from the root, if the cache has a
directory. -/
theorem join_reference (h : o.cache.directory ≠ "") (directory : String) :
    o.root.join (o.cache.reference directory) = o.cache.filePath directory := by
  have hlast : o.cache.directory.toList.getLast? ≠ some '/' := by
    have hdirectory : o.cache.directory.toList =
        (o.layoutCache.toList.reverse.dropWhile Text.isSlash).reverse := String.toList_ofList
    have hhead := List.head?_dropWhile_not Text.isSlash o.layoutCache.toList.reverse
    rw [hdirectory, List.getLast?_reverse]
    intro hslash
    simp [hslash, Text.isSlash] at hhead
  rw [LayoutCache.filePath, LayoutCache.path, LayoutCache.reference, String.append_assoc]
  exact (Path.join_join h hlast (LayoutCache.isAbsolute_fileName directory)).symm

/-- Otherwise the reference starts with a slash, and leads into the root of all paths. -/
private theorem location_join_reference_of_eq (h : o.cache.directory = "") (directory : String) :
    (o.root.join (o.cache.reference directory)).location =
      Location.child ⟨true, []⟩ (LayoutCache.fileName directory) := by
  have hname := LayoutCache.isName_fileName directory
  have hdot := (LayoutCache.fileName_ne_dots directory).1
  have htext : o.cache.reference directory = "" ++ "/" ++ LayoutCache.fileName directory := by
    rw [LayoutCache.reference, h]
  have habsolute : Path.isAbsolute ⟨o.cache.reference directory⟩ = true := by
    simp [Path.isAbsolute, htext, List.isPrefixOf]
  have hnames : Path.namesOf (o.cache.reference directory) = [LayoutCache.fileName directory] := by
    rw [htext, Path.namesOf_append_slash, Path.namesOf_of_not_mem hname.2 hname.1]
    simp
  rw [Path.join_of_isAbsolute habsolute]
  simp [Path.location, Path.names, habsolute, hnames, hdot, Location.child]

/-- The reference of a placeholder is spelled as the path of its file if the cache has a directory,
or the root is the root of all paths. -/
private theorem spelledAlike_reference_iff (directory : String) :
    (o.root.join (o.cache.reference directory)).SpelledAlike (o.cache.filePath directory) ↔
      o.cache.directory ≠ "" ∨ o.AtTop := by
  by_cases h : o.cache.directory = ""
  · have hreference := location_join_reference_of_eq h directory
    have hfile := o.cache.location_filePath directory
    rw [location_cachePath h] at hfile
    simp only [h, ne_eq, not_true_eq_false, false_or]
    constructor
    · intro halike
      -- the file lies in the root of the application, and its reference in that of all paths
      have hparent := congrArg Location.parent? (Path.location_eq_of_spelledAlike halike)
      rw [hreference, hfile, Location.parent?_child, Location.parent?_child] at hparent
      exact (Option.some.inj hparent).symm
    · intro htop
      rw [show o.root.location = ⟨true, []⟩ from htop] at hfile
      exact .of_isAbsolute (Path.isAbsolute_of_location_eq hreference) (hreference.trans hfile.symm)
  · simp only [h, ne_eq, not_false_eq_true, true_or, iff_true]
    rw [join_reference h directory]
    exact .refl _

end Options

namespace LayoutCache

/-- The calls that a placeholder may take: about the cache directory, and about its file. -/
def callsFor (cache : LayoutCache) (directory : String) : List Call :=
  [.probe cache.path, .makeDirectory cache.path, .probe (cache.filePath directory),
    .write (cache.filePath directory) placeholderContents]

variable {cache : LayoutCache} {directory file : String}

/-- Writing a placeholder asks for its file. -/
private theorem calls_of_yields_ensureFile {events : Multiset Event}
    (h : Yields (cache.ensureFile directory .done) events file) :
    file = cache.reference directory ∧
      (∃ reply, (⟨.probe (cache.filePath directory), reply⟩ : Event) ∈ events) ∧
      ∀ e ∈ events, e.call ∈ cache.callsFor directory := by
  obtain ⟨reply, rest, rfl, hreply⟩ := yields_call_iff.1 h
  rcases reply with f | (_ | _)
  · simp at hreply
  · obtain ⟨written, last, rfl, hwritten⟩ := yields_call_iff.1 hreply
    cases written with
    | error f => simp at hwritten
    | ok _ =>
      obtain ⟨hfile, rfl⟩ := yields_done_iff.1 hwritten
      exact ⟨(Except.ok.inj hfile).symm, ⟨_, Multiset.mem_cons_self _ _⟩, by simp [callsFor]⟩
  · obtain ⟨hfile, rfl⟩ := yields_done_iff.1 hreply
    exact ⟨(Except.ok.inj hfile).symm, ⟨_, Multiset.mem_cons_self _ _⟩, by simp [callsFor]⟩

/-- What is given for a directory is the reference of its file, which was asked for. -/
private theorem calls_of_yields_source {events : Multiset Event}
    (h : Yields (cache.source directory .done) events file) :
    file = cache.reference directory ∧
      (∃ reply, (⟨.probe (cache.filePath directory), reply⟩ : Event) ∈ events) ∧
      ∀ e ∈ events, e.call ∈ cache.callsFor directory := by
  obtain ⟨reply, rest, rfl, hreply⟩ := yields_call_iff.1 h
  rcases reply with f | (_ | _)
  · simp at hreply
  · obtain ⟨made, last, rfl, hmade⟩ := yields_call_iff.1 hreply
    cases made with
    | error f => simp at hmade
    | ok _ =>
      obtain ⟨hfile, ⟨asked, hasked⟩, hcalls⟩ := calls_of_yields_ensureFile hmade
      refine ⟨hfile, ⟨asked, ?_⟩, ?_⟩
      · exact Multiset.mem_cons_of_mem (Multiset.mem_cons_of_mem hasked)
      · simpa [callsFor] using hcalls
  · obtain ⟨hfile, ⟨asked, hasked⟩, hcalls⟩ := calls_of_yields_ensureFile hreply
    exact ⟨hfile, ⟨asked, Multiset.mem_cons_of_mem hasked⟩, by simpa [callsFor] using hcalls⟩

end LayoutCache

/-! ### Where the options and a build agree -/

/-- A job that makes a call makes it first. -/
private theorem first_of_run_call {α σ : Type} {storage : Storage (StateM σ)} {c : Call}
    {next : Except Fault c.Reply → Job α} {s s' : σ} {e : Event} {events : List Event} {job : Job α}
    (hrun : Run storage (.call c next) s (e :: events) job s') : e.call = c := by
  generalize hall : e :: events = all at hrun
  cases hrun with
  | refl => simp at hall
  | step hstep _ =>
    cases hstep
    exact congrArg Event.call (List.cons.inj hall).1

/-- A job that is done makes no call. -/
private theorem not_run_done {α σ : Type} {storage : Storage (StateM σ)} {r : Except Fault α}
    {s s' : σ} {e : Event} {events : List Event} {job : Job α} :
    ¬ Run storage (.done r) s (e :: events) job s' := by
  intro hrun
  generalize hall : e :: events = all at hrun
  cases hrun with
  | refl => simp at hall
  | step hstep _ => cases hstep

/-- The first call of a build lists the routes directory. -/
theorem first_of_run_buildTree {σ : Type} {storage : Storage (StateM σ)} {o : Options} {depth : Nat}
    {s s' : σ} {e : Event} {events : List Event} {job : Job (List Node)}
    (hrun : Run storage (FileRoutes.buildTree o depth) s (e :: events) job s') :
    e.call = .list (o.root.join (startDirectory o.routes)) := by
  unfold FileRoutes.buildTree at hrun
  cases hignored : IgnoreSet.ofTexts o.ignored with
  | error f =>
    rw [hignored] at hrun
    exact absurd hrun not_run_done
  | ok ignored =>
    rw [hignored] at hrun
    cases depth with
    | zero => exact absurd hrun not_run_done
    | succ depth => exact first_of_run_call hrun

/-- **The paths of the options are those of a build**, but for slashes and backslashes. The first
call of a build lists the routes directory. The options spell its path alike if they write it
without a backslash, and relative unless the root of the application is that of all paths; from an
empty root a `./` in front counts. If the root has no backslash, they spell it alike in no other
case. The cache directory is spelled alike, and the files of placeholders lie in it, unless the
options write it with slashes only. A placeholder takes calls about this directory and about its own
file, and what is returned for it, seen from the root, is spelled as the path of the file unless the
options write the cache directory with slashes only or not at all. Where the root is that of all
paths, there is no exception for the cache. -/
theorem Options.paths_agree_iff (o : Options) :
    (∀ {σ : Type} {storage : Storage (StateM σ)} {depth : Nat} {s s' : σ} {e : Event}
      {events : List Event} {job : Job (List Node)},
      Run storage (FileRoutes.buildTree o depth) s (e :: events) job s' →
        e.call = .list (o.root.join (startDirectory o.routes))) ∧
    ('\\' ∉ o.routes.toList → Path.isAbsolute ⟨o.routes⟩ = false ∨ o.AtTop →
      o.root.text ≠ "" ∨ ¬ ['.', '/'] <+: o.routes.toList →
        (o.root.join (startDirectory o.routes)).SpelledAlike o.routesPath) ∧
    ('\\' ∉ o.root.text.toList →
      (o.root.join (startDirectory o.routes)).SpelledAlike o.routesPath →
        '\\' ∉ o.routes.toList ∧ (Path.isAbsolute ⟨o.routes⟩ = false ∨ o.AtTop)) ∧
    (o.cache.path.SpelledAlike o.layoutCachePath ↔
      o.layoutCache = "" ∨ o.cache.directory ≠ "" ∨ o.AtTop) ∧
    ∀ directory : String,
      ((o.cache.filePath directory).location.parent? = some o.layoutCachePath.location ↔
        o.layoutCache = "" ∨ o.cache.directory ≠ "" ∨ o.AtTop) ∧
      ((o.root.join (o.cache.reference directory)).SpelledAlike (o.cache.filePath directory) ↔
        o.cache.directory ≠ "" ∨ o.AtTop) ∧
      ∀ {σ : Type} {storage : Storage (StateM σ)} {s s' : σ} {events : List Event}
        {job : Job String} {file : String},
        Run storage (o.cache.source directory .done) s events job s' →
        job.result? = some (.ok file) →
          file = o.cache.reference directory ∧
          (∃ reply, (⟨.probe (o.cache.filePath directory), reply⟩ : Event) ∈ events) ∧
          ∀ e ∈ events, e.call ∈ o.cache.callsFor directory := by
  refine ⟨first_of_run_buildTree,
    fun hroutes hat hdot => spelledAlike_routesPath hroutes hat hdot, fun hroot halike => ?_,
    ⟨fun halike => of_location_cachePath_eq (Path.location_eq_of_spelledAlike halike),
      spelledAlike_cachePath⟩, fun directory => ⟨?_, spelledAlike_reference_iff directory,
      fun {σ storage s s' events job file} hrun hresult => ?_⟩⟩
  · have hlocation : o.routesLocation = o.routesPath.location :=
      Path.location_eq_of_spelledAlike halike
    have hroutes := backslash_not_mem_routes hroot hlocation
    exact ⟨hroutes, (routesLocation_eq_iff hroutes).1 hlocation⟩
  · rw [o.cache.location_filePath, Location.parent?_child, Option.some.injEq]
    exact ⟨of_location_cachePath_eq, fun h =>
      Path.location_eq_of_spelledAlike (spelledAlike_cachePath h)⟩
  · obtain ⟨hfile, ⟨reply, hasked⟩, hcalls⟩ :=
      LayoutCache.calls_of_yields_source (hrun.yields hresult)
    exact ⟨hfile, ⟨reply, Multiset.mem_coe.1 hasked⟩, fun e he => hcalls e (Multiset.mem_coe.2 he)⟩

/-- The default options spell all paths as a build does. -/
theorem Options.paths_agree_iff_defaults :
    let o : Options := {}
    (o.root.join (startDirectory o.routes)).SpelledAlike o.routesPath ∧
      o.cache.path.SpelledAlike o.layoutCachePath ∧
      (o.root.join (o.cache.reference "shop")).SpelledAlike (o.cache.filePath "shop") ∧
      (o.cache.filePath "shop").location.parent? = some o.layoutCachePath.location := by
  intro o
  obtain ⟨-, hroutes, -, hcache, hplaceholder⟩ := Options.paths_agree_iff o
  have hdirectory : o.cache.directory ≠ "" := by decide
  obtain ⟨hinside, hreference, -⟩ := hplaceholder "shop"
  exact ⟨hroutes (by decide) (.inl (by decide)) (.inl (by decide)),
    hcache.2 (.inr (.inl hdirectory)), hreference.2 (.inl hdirectory),
    hinside.2 (.inr (.inl hdirectory))⟩

/-! ### Where they do not -/

namespace Memory

/-- One page in the routes directory. -/
def onePage : Memory :=
  .ofFiles [(⟨"app/routes/page.tsx"⟩, "")]

/-- The root of the application is the cache as well. -/
def rootCacheOptions : Options where
  root := ⟨"app"⟩
  layoutCache := ""

/-- With an empty text for the cache, the reference of a placeholder does not lead to its file. With
slashes in front, or with a backslash, the options do not name the directory that is listed, and
with slashes only they do not name the cache. -/
theorem reference_leads_elsewhere :
    (onePage.buildTree rootCacheOptions).1 =
        .ok [.layout "/root.layout.tsx" [.indexPage "./routes/page.tsx"]] ∧
      (onePage.buildTree rootCacheOptions).2.contains ⟨"app/root.layout.tsx"⟩ = true ∧
      (onePage.buildTree rootCacheOptions).2.contains
        (rootCacheOptions.root.join "/root.layout.tsx") = false ∧
      (∀ routes ∈ ["/routes", "a\\b"],
        ¬ (rootCacheOptions.root.join (startDirectory routes)).SpelledAlike
          { rootCacheOptions with routes := routes }.routesPath) ∧
      ¬ { rootCacheOptions with layoutCache := "/" }.cache.path.SpelledAlike
        { rootCacheOptions with layoutCache := "/" }.layoutCachePath := by
  decide +kernel

end Memory

end FileRoutes
