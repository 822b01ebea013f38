import FileRoutes.Proofs.Mirrored
import FileRoutes.Proofs.OptionPaths
import FileRoutes.Proofs.Renaming

/-!
# Spellings of the routes directory

Texts with the same names on them, but for dots, lead to one directory. A build with one of them as
its routes directory makes the same calls, up to the spelling of their paths, as a build with
another, and it finds the same entries (`Options.mirrors_buildTree`). This is judged directory by
directory and carried over to whole runs by `Job.Mirrors.run`.

What the spelling shows in are the references. A build makes slashes of backslashes and cuts off one
`./` in front and slashes at the ends, and whatever else was written, such as a second slash or a
`.` between names, stands in the reference of each authored file, and in the texts that the patterns
are matched against. So the entries are the same as long as the patterns pass over the same entries
(`Options.IgnoresAlike`), with the authored files referred to below the other spelling
(`respell`), and the placeholders are the same as well.

Main result: `Options.spelling_kept`. Plain spellings (`SpellsPlainly`) make no difference at all,
and `Memory.spelling_matters` shows that others do.
-/

namespace FileRoutes

open Job

/-! ### Where a spelling leads -/

theorem slashed_append_slash (a b : String) :
    slashed (a ++ "/" ++ b) = slashed a ++ "/" ++ slashed b :=
  String.toList_inj.1 (by simp [slashed])

/-- The routes directory as a build sees it does not tell backslashes from slashes. -/
theorem startDirectory_slashed (routes : String) :
    startDirectory (slashed routes) = startDirectory routes := by
  rw [startDirectory_eq, startDirectory_eq,
    slashed_of_not_mem (backslash_not_mem_slashed routes)]

/-- The names on a path with slashes for its backslashes are those of each name on the path. -/
theorem namesOf_slashed (text : String) :
    Path.namesOf (slashed text) =
      (Path.namesOf text).flatMap fun name => Path.namesOf (slashed name) := by
  -- a path is cut at any of its slashes, and without one it is a name or empty
  induction hlength : text.toList.length using Nat.strongRecOn generalizing text with
  | ind length ih =>
    subst hlength
    by_cases hslash : '/' ∈ text.toList
    · obtain ⟨before, after, hchars⟩ := List.append_of_mem hslash
      have htext : text = String.ofList before ++ "/" ++ String.ofList after :=
        String.toList_inj.1 (by simp [hchars])
      have hlength : text.toList.length = before.length + (after.length + 1) := by simp [hchars]
      have hbefore := ih before.length (by omega) (String.ofList before) (by simp)
      have hafter := ih after.length (by omega) (String.ofList after) (by simp)
      rw [htext, slashed_append_slash, Path.namesOf_append_slash, Path.namesOf_append_slash,
        List.flatMap_append, hbefore, hafter]
    · by_cases hempty : text = ""
      · subst hempty
        rfl
      · rw [Path.namesOf_of_not_mem hslash hempty, List.flatMap_singleton]

/-- The names of the routes directory as a build sees it follow from those of its spelling, without
dots. -/
theorem filter_namesOf_startDirectory (routes : String) :
    (Path.namesOf (startDirectory routes)).filter (· ≠ ".") =
      ((Path.namesOf routes).filter (· ≠ ".")).flatMap fun name =>
        (Path.namesOf (slashed name)).filter (· ≠ ".") := by
  have hstart : (Path.namesOf (slashed routes)).filter (· ≠ ".") =
      (Path.namesOf (startDirectory routes)).filter (· ≠ ".") := by
    rw [namesOf_eq_append_startDirectory (backslash_not_mem_slashed routes),
      startDirectory_slashed]
    split <;> simp
  rw [← hstart, namesOf_slashed, List.filter_flatMap]
  generalize Path.namesOf routes = names
  have hdot : (Path.namesOf (slashed ".")).filter (· ≠ ".") = [] := by decide
  induction names with
  | nil => rfl
  | cons name rest ih =>
    by_cases hname : name = "."
    · subst hname
      rw [List.flatMap_cons, hdot, List.nil_append, ih, List.filter_cons_of_neg (by simp)]
    · rw [List.flatMap_cons, ih, List.filter_cons_of_pos (by simpa using hname),
        List.flatMap_cons]

/-- Spellings that lead to one place make one routes directory. -/
theorem Options.routesLocation_congr {o : Options} {routes : String}
    (h : (Path.location ⟨o.routes⟩).names = (Path.location ⟨routes⟩).names) :
    { o with routes := routes }.routesLocation = o.routesLocation := by
  have hnames : (Path.namesOf (startDirectory routes)).filter (· ≠ ".") =
      (Path.namesOf (startDirectory o.routes)).filter (· ≠ ".") := by
    rw [filter_namesOf_startDirectory, filter_namesOf_startDirectory]
    exact congrArg (List.flatMap _) h.symm
  rw [routesLocation, routesLocation,
    Path.location_join o.root (isAbsolute_startDirectory routes),
    Path.location_join o.root (isAbsolute_startDirectory o.routes), hnames]

/-! ### Respelled references -/

variable {start start' : String} {names : List String}

/-- The path of an entry ends in its name. -/
theorem toList_entryPath (directory name : String) : (entryPath directory name).toList =
    (if directory = "" then [] else directory.toList ++ ['/']) ++ name.toList := by
  unfold entryPath
  split <;> simp

/-- The path of an entry tells that of its directory. -/
theorem entryPath_left_inj {path : String} :
    entryPath start path = entryPath start' path ↔ start = start' := by
  refine ⟨fun heq => ?_, fun heq => heq ▸ rfl⟩
  have hchars := congrArg String.toList heq
  rw [toList_entryPath, toList_entryPath, List.append_left_inj] at hchars
  by_cases hstart : start = "" <;> by_cases hstart' : start' = ""
  · rw [hstart, hstart']
  · simp [hstart, hstart'] at hchars
  · simp [hstart, hstart'] at hchars
  · simpa [hstart, hstart', String.toList_inj] using hchars

/-- What is below an entry of a directory has its path below that of the directory. -/
theorem pathBelow_entryPath {path : String} (h : path ≠ "") (names : List String) :
    pathBelow (entryPath start path) names = entryPath start (pathBelow path names) := by
  induction names generalizing path with
  | nil => rfl
  | cons name names ih =>
    have hassoc :
        entryPath (entryPath start path) name = entryPath start (path ++ "/" ++ name) := by
      unfold entryPath
      split <;> simp_all [String.append_assoc]
    have hentry : entryPath path name = path ++ "/" ++ name := if_neg h
    rw [pathBelow_cons, pathBelow_cons, hassoc, hentry, ih (by simp)]

/-- Names with one slash between any two of them are the path of what they lead to. -/
theorem intercalate_eq_pathBelow (h : ∀ name ∈ names, IsName name) :
    "/".intercalate names = pathBelow "" names := by
  have hrelative : (pathBelow "" names).toList.head? ≠ some '/' :=
    Path.isAbsolute_eq_false_iff.1 (isAbsolute_pathBelow rfl h)
  rw [← routeDirectory_pathBelow "" h]
  unfold routeDirectory
  generalize pathBelow "" names = path at hrelative
  cases hchars : path.toList with
  | nil =>
    obtain rfl : path = "" := String.toList_inj.1 hchars
    rfl
  | cons c rest =>
    have hc : c ≠ '/' := by simpa [hchars] using hrelative
    have hkept : (c :: rest).dropWhile Text.isSlash = path.toList := by
      rw [List.dropWhile_cons_of_neg (by simp [Text.isSlash, hc]), hchars]
    simp [List.isPrefixOf?, hkept]

/-- The path of what is below the routes directory, seen from there. -/
theorem pathBelow_eq_entryPath (hnames : names ≠ []) (h : ∀ name ∈ names, IsName name) :
    pathBelow start names = entryPath start ("/".intercalate names) := by
  obtain ⟨name, rest, rfl⟩ := List.exists_cons_of_ne_nil hnames
  have hname := (h name List.mem_cons_self).1
  rw [intercalate_eq_pathBelow h, pathBelow_cons, pathBelow_cons, pathBelow_entryPath hname]
  rfl

/-- A text that is the reference of an authored file below one routes directory, as it is below
another one. Any other text stays as it is. -/
def respell (start start' text : String) : String :=
  if referenceRole? text = none then text
  else fileReference (entryPath start'
    (routeDirectory start (String.ofList (text.toList.drop 2))))

theorem respell_of_eq_none {text : String} (h : referenceRole? text = none) :
    respell start start' text = text :=
  if_pos h

/-- The reference of a placeholder stays as it is. -/
theorem respell_reference (cache : LayoutCache) (directory : String) :
    respell start start' (cache.reference directory) = cache.reference directory :=
  respell_of_eq_none (referenceRole?_reference cache directory)

theorem respell_empty : respell start start' "" = "" :=
  respell_of_eq_none (by decide)

/-- An authored file is referred to below the other directory. -/
theorem respell_fileReference {name : String} (hnames : ∀ n ∈ names, IsName n)
    (hrole : Convention.ofFileName? name ≠ none) :
    respell start start' (fileReference (pathBelow start (names ++ [name]))) =
      fileReference (pathBelow start' (names ++ [name])) := by
  obtain ⟨role, hrole⟩ := Option.ne_none_iff_exists'.1 hrole
  have hname := isName_of_ofFileName? hrole
  have hall : ∀ n ∈ names ++ [name], IsName n :=
    List.forall_mem_append.2 ⟨hnames, by simpa using hname⟩
  have hmeaning : referenceRole? (fileReference (pathBelow start (names ++ [name]))) ≠ none := by
    rw [pathBelow_concat, referenceRole?_fileReference _ hname, hrole]
    simp
  have hdrop : ∀ path, String.ofList ((fileReference path).toList.drop 2) = path := fun path => by
    simp [fileReference]
  rw [respell, if_neg hmeaning, hdrop, routeDirectory_pathBelow start hall,
    ← pathBelow_eq_entryPath (by simp) hall]

/-- A file has the same reference below both directories only if they are written alike. -/
theorem Options.referenceOf_eq_iff (o : Options) {routes name : String} {folders : List String}
    (hfolders : ∀ n ∈ folders, IsName n) (hrole : Convention.ofFileName? name ≠ none) :
    o.referenceOf folders name = { o with routes := routes }.referenceOf folders name ↔
      startDirectory o.routes = startDirectory routes := by
  obtain ⟨role, hrole⟩ := Option.ne_none_iff_exists'.1 hrole
  have hall : ∀ n ∈ folders ++ [name], IsName n :=
    List.forall_mem_append.2 ⟨hfolders, by simpa using isName_of_ofFileName? hrole⟩
  have hcut : ∀ path path', fileReference path = fileReference path' ↔ path = path' :=
    fun path path' => by simp [fileReference, ← String.toList_inj]
  rw [referenceOf, referenceOf, hcut, pathBelow_eq_entryPath (by simp) hall,
    pathBelow_eq_entryPath (by simp) hall, entryPath_left_inj]

/-! ### What is found under both spellings -/

namespace Scan

/-- What is found in a directory below one routes directory and below the other. -/
inductive Finding.Respelled (start start' : String) : Finding → Finding → Prop
  | node (n : Node) : Respelled start start' (.node n) (.node (n.renamed (respell start start')))
  | layout {path path' : String}
    (h : respell start start' (fileReference path) = fileReference path') :
    Respelled start start' (.layout path) (.layout path')
  | directory (name : String) {names : List String} (h : ∀ n ∈ names, IsName n ∧ n ≠ ".") :
    Respelled start start' (.directory name (pathBelow start names))
      (.directory name (pathBelow start' names))

/-- The nodes of one routes directory, as they are below the other. -/
def NodesRespelled (start start' : String) (nodes nodes' : List Node) : Prop :=
  nodes' = nodes.map (Node.renamed (respell start start'))

variable {findings findings' : List Finding} {scanned scanned' : List (List Node)}

/-- An entry that is passed over under both spellings or under none is found as the same. -/
theorem rel_finding? {ignored : IgnoreSet} {e : Listed}
    (hnames : ∀ n ∈ names, IsName n ∧ n ≠ ".") (he : IsName e.name ∧ e.name ≠ ".")
    (hignored : ignored.ignores e.isDirectory (pathBelow start (names ++ [e.name])) =
      ignored.ignores e.isDirectory (pathBelow start' (names ++ [e.name]))) :
    Option.Rel (Finding.Respelled start start') (finding? ignored (pathBelow start names) e)
      (finding? ignored (pathBelow start' names) e) := by
  unfold finding?
  simp only [← pathBelow_concat, ← hignored]
  split
  · exact .none
  · split
    · exact .some (.directory _ (List.forall_mem_append.2 ⟨hnames, by simpa using he⟩))
    · unfold findingOfFile?
      have hfile := @respell_fileReference start start' names e.name fun n hn => (hnames n hn).1
      cases hrole : Convention.ofFileName? e.name with
      | none => exact .none
      | some role =>
        have hreference := hfile (by simp [hrole])
        cases role with
        | layout => exact .some (.layout hreference)
        | page =>
          have hnode : Finding.Respelled start start' _ _ :=
            .node (.indexPage (fileReference (pathBelow start (names ++ [e.name]))))
          rw [Node.renamed_eq] at hnode
          simpa [Node.indexPage, hreference] using Option.Rel.some hnode
        | notFound =>
          have hnode : Finding.Respelled start start' _ _ :=
            .node (.notFound (fileReference (pathBelow start (names ++ [e.name]))))
          rw [Node.renamed_eq] at hnode
          simpa [Node.notFound, hreference] using Option.Rel.some hnode

private theorem forall₂_filterMap_same {α β γ : Type} {R : β → γ → Prop} {f : α → Option β}
    {g : α → Option γ} {l : List α} (h : ∀ a ∈ l, Option.Rel R (f a) (g a)) :
    List.Forall₂ R (l.filterMap f) (l.filterMap g) := by
  induction l with
  | nil => exact .nil
  | cons a rest ih =>
    obtain ⟨ha, hrest⟩ := List.forall_mem_cons.1 h
    cases hf : f a <;> cases hg : g a <;> rw [hf, hg] at ha <;> cases ha
    · rw [List.filterMap_cons_none hf, List.filterMap_cons_none hg]
      exact ih hrest
    · next hbc =>
      rw [List.filterMap_cons_some hf, List.filterMap_cons_some hg]
      exact .cons hbc (ih hrest)

/-- The directories found lie at the same places. -/
theorem forall₂_directoryPaths
    (h : List.Forall₂ (Finding.Respelled start start') findings findings') :
    List.Forall₂ (fun path path' => ∃ names, (∀ n ∈ names, IsName n ∧ n ≠ ".") ∧
      path = pathBelow start names ∧ path' = pathBelow start' names)
      (directoryPaths findings) (directoryPaths findings') := by
  induction h with
  | nil => exact .nil
  | cons hfinding _ ih =>
    cases hfinding with
    | node n => exact ih
    | layout h => exact ih
    | directory name h => exact .cons ⟨_, h, rfl, rfl⟩ ih

/-- The last layout found is the same. -/
theorem rel_layoutPath? (h : List.Forall₂ (Finding.Respelled start start') findings findings') :
    Option.Rel (fun path path' => respell start start' (fileReference path) = fileReference path')
      (layoutPath? findings) (layoutPath? findings') := by
  have hlayouts : List.Forall₂
      (fun path path' => respell start start' (fileReference path) = fileReference path')
      (layoutPaths findings) (layoutPaths findings') := by
    induction h with
    | nil => exact .nil
    | cons hfinding _ ih =>
      cases hfinding with
      | node n => exact ih
      | layout h => exact .cons h ih
      | directory name h => exact ih
  rw [layoutPath?_eq, layoutPath?_eq, ← List.head?_reverse, ← List.head?_reverse]
  have hbackwards := List.forall₂_reverse_iff.2 hlayouts
  generalize (layoutPaths findings).reverse = backwards at hbackwards
  generalize (layoutPaths findings').reverse = backwards' at hbackwards
  cases hbackwards with
  | nil => exact .none
  | cons h _ => exact .some h

/-- The nodes of what was found are the same. -/
theorem nodesRespelled_nodesOf
    (h : List.Forall₂ (Finding.Respelled start start') findings findings')
    (hscanned : List.Forall₂ (NodesRespelled start start') scanned scanned') :
    NodesRespelled start start' (nodesOf findings scanned) (nodesOf findings' scanned') := by
  induction h generalizing scanned scanned' with
  | nil => rfl
  | cons hfinding _ ih =>
    cases hfinding with
    | node n => exact congrArg (_ :: ·) (ih hscanned)
    | layout h => exact ih hscanned
    | directory name h =>
      cases hscanned with
      | nil => exact ih .nil
      | @cons inside inside' _ _ hinside hrest =>
        have hnodes : NodesRespelled start start' (nodesOfDirectory name inside)
            (nodesOfDirectory name inside') := by
          unfold nodesOfDirectory
          split
          · exact hinside
          · simp [NodesRespelled, Node.renamed_eq, Node.folder, Node.route, respell_empty,
              show inside' = _ from hinside]
        rw [NodesRespelled, nodesOf, nodesOf, hnodes, ih hrest, List.map_append]

end Scan

/-! ### Builds under both spellings -/

/-- The same fault, but for the spelling of the path that it names. -/
inductive Fault.SpelledAlike : Fault → Fault → Prop
  | refl (f : Fault) : SpelledAlike f f
  | routeDirectory {p q : Path} (h : p.location = q.location) (cause : Fault) :
    SpelledAlike (.routeDirectory p cause) (.routeDirectory q cause)
  | tooDeep {p q : Path} (h : p.location = q.location) : SpelledAlike (.tooDeep p) (.tooDeep q)

namespace Memory

/-- A memory lists a directory alike under all spellings of its path. -/
theorem list_congr {p q : Path} (h : p.location = q.location) (m : Memory) :
    m.list p = m.list q := by
  rw [list, list, h]

end Memory

namespace LayoutCache

variable {α β σ : Type} {storage : Storage (StateM σ)} {Inv : σ → Prop} {R : α → β → Prop}
  {E : Fault → Fault → Prop}

/-- Jobs that go on with the same layout mirror each other if they do so after each reply. -/
theorem mirrors_source (cache : LayoutCache) (directory : String)
    (keeps : ∀ c s, Inv s → Inv (storage.answer c s).2)
    {next : Except Fault String → Job α} {next' : Except Fault String → Job β}
    (succeed : Mirrors storage Inv R E (next (.ok (cache.reference directory)))
      (next' (.ok (cache.reference directory))))
    (fail : ∀ f, Mirrors storage Inv R E (next (.error f)) (next' (.error f))) :
    Mirrors storage Inv R E (cache.source directory next) (cache.source directory next') := by
  have hfile : Mirrors storage Inv R E (cache.ensureFile directory next)
      (cache.ensureFile directory next') := by
    refine .same_call (keeps _) fun reply => ?_
    match reply with
    | .error f => exact fail f
    | .ok true => exact succeed
    | .ok false =>
      refine .same_call (keeps _) fun reply => ?_
      match reply with
      | .error f => exact fail _
      | .ok _ => exact succeed
  refine .same_call (keeps _) fun reply => ?_
  match reply with
  | .error f => exact fail f
  | .ok true => exact hfile
  | .ok false =>
    refine .same_call (keeps _) fun reply => ?_
    match reply with
    | .error f => exact fail _
    | .ok _ => exact hfile

end LayoutCache

/-- Jobs that build the same nodes on a memory, as they are below one routes directory and below the
other. -/
abbrev MirrorsNodes (start start' : String) (job job' : Job (List Node)) : Prop :=
  Mirrors Memory.storage Memory.WellFormed (Scan.NodesRespelled start start') Fault.SpelledAlike
    job job'

namespace Options

variable {o : Options} {routes : String} {ignored : IgnoreSet}

/-- The patterns pass over the same entries, whichever spelling of the routes directory stands
before the names that lead to an entry. -/
def IgnoresAlike (o : Options) (routes : String) : Prop :=
  ∀ ignored, IgnoreSet.ofTexts o.ignored = .ok ignored →
    ∀ names isDirectory, names ≠ [] → (∀ n ∈ names, IsName n ∧ n ≠ ".") →
      ignored.ignores isDirectory (pathBelow (startDirectory o.routes) names) =
        ignored.ignores isDirectory (pathBelow (startDirectory routes) names)

/-- Without patterns nothing is passed over. -/
theorem ignoresAlike_of_ignored_eq_nil (h : o.ignored = []) : o.IgnoresAlike routes := by
  intro ignored htexts names isDirectory _ _
  rw [h] at htexts
  obtain rfl : {} = ignored := Except.ok.inj htexts
  have hnone : ∀ path, ({} : IgnoreSet).ignores isDirectory path = false := fun path => by
    cases isDirectory <;> rfl
  rw [hnone, hnone]

/-- Nodes are wrapped alike under both spellings. -/
theorem mirrors_wrap {nodes nodes' : List Node} {layout? layout?' : Option String}
    (hnames : ∀ n ∈ names, IsName n ∧ n ≠ ".")
    (hlayout : Option.Rel (fun path path' => respell (startDirectory o.routes)
      (startDirectory routes) (fileReference path) = fileReference path') layout? layout?')
    (hnodes : Scan.NodesRespelled (startDirectory o.routes) (startDirectory routes) nodes nodes') :
    MirrorsNodes (startDirectory o.routes) (startDirectory routes)
      (Scan.wrap (o.scanSetting ignored) (pathBelow (startDirectory o.routes) names) layout? nodes)
      (Scan.wrap ({ o with routes := routes }.scanSetting ignored)
        (pathBelow (startDirectory routes) names) layout?' nodes') := by
  obtain rfl : nodes' = _ := hnodes
  cases hlayout with
  | some h =>
    refine .done (.ok ?_)
    simp [Scan.NodesRespelled, Node.renamed_eq, Node.layout, h]
  | none =>
    have hneeds : Scan.needsPlaceholder (nodes.map (Node.renamed
        (respell (startDirectory o.routes) (startDirectory routes)))) =
          Scan.needsPlaceholder nodes := by
      rw [Scan.needsPlaceholder, Scan.needsPlaceholder, Node.any_isLayout_map_renamed,
        List.isEmpty_map]
    simp only [Scan.wrap, hneeds]
    split
    · have hisName := fun n hn => (hnames n hn).1
      simp only [scanSetting, routeDirectory_pathBelow _ hisName]
      refine LayoutCache.mirrors_source o.cache _ (fun c s hs => hs.answer c) (.done (.ok ?_))
        fun f => .done (.error (.refl f))
      simp [Scan.NodesRespelled, Node.renamed_eq, Node.layout, respell_reference]
    · exact .done (.ok rfl)

/-- A directory is scanned alike under both spellings. -/
theorem mirrors_directory
    (hroutes : (Path.location ⟨o.routes⟩).names = (Path.location ⟨routes⟩).names)
    (hignored : ∀ names isDirectory, names ≠ [] → (∀ n ∈ names, IsName n ∧ n ≠ ".") →
      ignored.ignores isDirectory (pathBelow (startDirectory o.routes) names) =
        ignored.ignores isDirectory (pathBelow (startDirectory routes) names))
    (depth : Nat) (hnames : ∀ n ∈ names, IsName n ∧ n ≠ ".") :
    MirrorsNodes (startDirectory o.routes) (startDirectory routes)
      (Scan.directory (o.scanSetting ignored) depth (pathBelow (startDirectory o.routes) names))
      (Scan.directory ({ o with routes := routes }.scanSetting ignored) depth
        (pathBelow (startDirectory routes) names)) := by
  have hlocation : ∀ {names}, (∀ n ∈ names, IsName n ∧ n ≠ ".") →
      (o.root.join (pathBelow (startDirectory o.routes) names)).location =
        (o.root.join (pathBelow (startDirectory routes) names)).location := by
    intro names hnames
    rw [o.location_join_pathBelow hnames, ← routesLocation_congr hroutes]
    exact ({ o with routes := routes }.location_join_pathBelow hnames).symm
  induction depth generalizing names with
  | zero => exact .done (.error (.tooDeep (hlocation hnames)))
  | succ depth ih =>
    have hanswer : ∀ p m, Memory.storage.answer (.list p) m = (m.list p, m) := fun _ _ => rfl
    refine .call (fun m hm => hm.answer _) (fun m _ => by rw [hanswer, hanswer]) fun m hm => ?_
    rw [hanswer, hanswer]
    simp only [scanSetting, ← Memory.list_congr (hlocation hnames) m]
    cases hlist : m.list (o.root.join (pathBelow (startDirectory o.routes) names)) with
    | error f => exact .done (.error (.routeDirectory (hlocation hnames) f))
    | ok listing =>
      have hfindings : List.Forall₂ (Scan.Finding.Respelled (startDirectory o.routes)
          (startDirectory routes))
          (listing.filterMap
            (Scan.finding? ignored (pathBelow (startDirectory o.routes) names)))
          (listing.filterMap (Scan.finding? ignored (pathBelow (startDirectory routes) names))) :=
        Scan.forall₂_filterMap_same fun e he =>
          have hentry := Memory.isName_of_list hm.lawful hlist e he
          Scan.rel_finding? hnames hentry (hignored _ _ (by simp)
            (List.forall_mem_append.2 ⟨hnames, by simpa using hentry⟩))
      refine .fork_map ((Scan.forall₂_directoryPaths hfindings).imp ?_) fun scanned scanned' h => ?_
      · rintro _ _ ⟨names, hnames, rfl, rfl⟩
        exact ih hnames
      · refine mirrors_wrap hnames (Scan.rel_layoutPath? hfindings) ?_
        have hnodes := Scan.nodesRespelled_nodesOf hfindings h
        rw [Scan.NodesRespelled] at hnodes ⊢
        rw [hnodes, Node.sortSiblings_map_renamed]

/-- Builds mirror each other under both spellings. -/
theorem mirrors_buildTree
    (hroutes : (Path.location ⟨o.routes⟩).names = (Path.location ⟨routes⟩).names)
    (hignored : o.IgnoresAlike routes) (depth : Nat) :
    MirrorsNodes (startDirectory o.routes) (startDirectory routes) (buildTree o depth)
      (buildTree { o with routes := routes } depth) := by
  unfold buildTree
  cases htexts : IgnoreSet.ofTexts o.ignored with
  | error f => exact .done (.error (.refl f))
  | ok ignored =>
    have hnone : ∀ n ∈ ([] : List String), IsName n ∧ n ≠ "." := by simp
    have hscan := mirrors_directory hroutes (hignored ignored htexts) depth hnone
    exact hscan

end Options

/-! ### Plain spellings -/

/-- The text writes the names with one slash between any two of them, after a `./` or nothing, and
with any slashes around. -/
def SpellsPlainly (names : List String) (text : String) : Prop :=
  ∃ front ∈ ["", "./"], ∃ before after,
    text = front ++ String.ofList (List.replicate before '/') ++ "/".intercalate names ++
      String.ofList (List.replicate after '/')

/-- Slashes in front of a text that begins with none are cut off. -/
private theorem dropWhile_isSlash_replicate {chars : List Char} (h : chars.head? ≠ some '/')
    (before : Nat) :
    (List.replicate before '/' ++ chars).dropWhile Text.isSlash = chars := by
  rw [List.dropWhile_append_of_pos fun c hc => by simp [Text.isSlash, List.eq_of_mem_replicate hc]]
  cases chars with
  | nil => rfl
  | cons c rest =>
    have hc : c ≠ '/' := by simpa using h
    rw [List.dropWhile_cons_of_neg (by simp [Text.isSlash, hc])]

/-- Slashes around a text that neither begins nor ends with one are cut off. -/
private theorem dropBothWhile_isSlash_replicate {chars : List Char} (hhead : chars.head? ≠ some '/')
    (hlast : chars.getLast? ≠ some '/') (before after : Nat) :
    Text.dropBothWhile Text.isSlash
      (List.replicate before '/' ++ (chars ++ List.replicate after '/')) = chars := by
  have hend : Text.dropEndWhile Text.isSlash (chars ++ List.replicate after '/') = chars := by
    rw [Text.dropEndWhile, List.reverse_append, List.reverse_replicate,
      dropWhile_isSlash_replicate (by simpa using hlast), List.reverse_reverse]
  cases chars with
  | nil =>
    have hall := dropWhile_isSlash_replicate hhead (before + after)
    rw [List.append_nil, List.replicate_add] at hall
    rw [Text.dropBothWhile, List.nil_append, hall, Text.dropEndWhile_nil]
  | cons c rest =>
    rw [Text.dropBothWhile, dropWhile_isSlash_replicate (by simpa using hhead), hend]

/-- Names with one slash between any two of them have no slash at the ends. -/
theorem head?_and_getLast?_intercalate (h : ∀ n ∈ names, IsName n) :
    ("/".intercalate names).toList.head? ≠ some '/' ∧
      ("/".intercalate names).toList.getLast? ≠ some '/' := by
  rw [intercalate_eq_pathBelow h]
  constructor
  · exact Path.isAbsolute_eq_false_iff.1 (isAbsolute_pathBelow rfl h)
  · rcases List.eq_nil_or_concat names with rfl | ⟨init, n, rfl⟩
    · simp
    · obtain ⟨hne, hslash⟩ := h n (by simp)
      rw [List.concat_eq_append, pathBelow_concat, toList_entryPath,
        List.getLast?_append_of_ne_nil _ (by simpa using hne)]
      exact fun hend => hslash (List.mem_of_getLast? hend)

/-- A text with no `.` among its names does not begin with `./`. -/
private theorem isPrefixOf?_dot_slash {chars : List Char}
    (h : "." ∉ Path.namesOf (String.ofList chars)) : ['.', '/'].isPrefixOf? chars = none := by
  cases hbegin : ['.', '/'].isPrefixOf? chars with
  | none => rfl
  | some rest =>
    have htext : String.ofList chars = "." ++ "/" ++ String.ofList rest :=
      String.toList_inj.1 (by simp [← List.isPrefixOf?_eq_some_iff_append_eq.1 hbegin])
    rw [htext, Path.namesOf_append_slash, Path.namesOf_of_not_mem (by decide) (by decide)] at h
    simp at h

/-- Plain spellings make one routes directory. -/
theorem startDirectory_of_spellsPlainly {text : String}
    (h : ∀ n ∈ names, IsName n ∧ n ≠ "." ∧ '\\' ∉ n.toList) (htext : SpellsPlainly names text) :
    startDirectory text = "/".intercalate names := by
  obtain ⟨front, hfront, before, after, rfl⟩ := htext
  have hnames : ∀ n ∈ names, IsName n := fun n hn => (h n hn).1
  generalize hchars : List.replicate before '/' ++
    (("/".intercalate names).toList ++ List.replicate after '/') = chars
  have hcut : Text.dropBothWhile Text.isSlash chars = ("/".intercalate names).toList := by
    obtain ⟨hhead, hlast⟩ := head?_and_getLast?_intercalate hnames
    exact hchars ▸ dropBothWhile_isSlash_replicate hhead hlast before after
  -- the slashes around them add no names
  have hnamesOf : Path.namesOf (String.ofList chars) = names := by
    rw [← namesOf_dropBothWhile, hcut, String.ofList_toList, intercalate_eq_pathBelow hnames,
      namesOf_pathBelow hnames, Path.namesOf_empty, List.nil_append]
  have hbackslash : '\\' ∉ chars := by
    have hmem : (∃ n ∈ Path.namesOf (String.ofList chars), '\\' ∈ n.toList) ↔
        '\\' ∈ (String.ofList chars).toList := Path.exists_mem_namesOf_iff (by decide)
    rw [hnamesOf, String.toList_ofList] at hmem
    rw [← hmem]
    rintro ⟨n, hn, hbackslash⟩
    exact (h n hn).2.2 hbackslash
  have hdot : ['.', '/'].isPrefixOf? chars = none :=
    isPrefixOf?_dot_slash fun hmem => (h "." (hnamesOf ▸ hmem)).2.1 rfl
  have htext : (front ++ String.ofList (List.replicate before '/') ++ "/".intercalate names ++
      String.ofList (List.replicate after '/')).toList = front.toList ++ chars := by
    simp [← hchars]
  rw [List.mem_pair] at hfront
  rcases hfront with rfl | rfl
  · rw [String.toList_empty, List.nil_append] at htext
    rw [startDirectory_eq, slashed_of_not_mem (htext ▸ hbackslash), htext, hdot,
      Option.getD_none, hcut, String.ofList_toList]
  · have hplain : '\\' ∉ "./".toList ++ chars := by simpa using hbackslash
    have hcutFront : ['.', '/'].isPrefixOf? ("./".toList ++ chars) = some chars :=
      List.isPrefixOf?_eq_some_iff_append_eq.2 (by simp)
    rw [startDirectory_eq, slashed_of_not_mem (htext ▸ hplain), htext, hcutFront,
      Option.getD_some, hcut, String.ofList_toList]

/-! ### Main result -/

open Memory

/-- How an entry is referred to under another spelling of the routes directory. -/
structure Options.Respells (o : Options) (routes : String) (e : Entry) : Prop where
  /-- A placeholder is referred to alike. -/
  placeholder (h : e.role? = none) :
    respell (startDirectory o.routes) (startDirectory routes) e.file = e.file
  /-- An authored file is referred to by the same names, below the other spelling. -/
  authored (h : e.role? ≠ none) : ∃ folders name, (∀ n ∈ folders, IsName n) ∧
    Convention.ofFileName? name = e.role? ∧ e.file = o.referenceOf folders name ∧
    respell (startDirectory o.routes) (startDirectory routes) e.file =
      { o with routes := routes }.referenceOf folders name

variable {o : Options} {routes : String} {depth : Nat} {m m' : Memory} {events : List Event}
  {job : Job (List Node)} {tree : List Node}

/-- All entries of a build are referred to below the other spelling. -/
theorem Job.Run.respells (hm : m.Reachable)
    (hrun : Run storage (FileRoutes.buildTree o depth) m events job m')
    (hresult : job.result? = some (.ok tree)) {e : Entry}
    (he : e ∈ Entry.preorderAll (convert tree)) : o.Respells routes e := by
  refine ⟨respell_of_eq_none, fun hrole => ?_⟩
  obtain ⟨ignored, F, -, hF, rfl, hlistings⟩ :=
    hrun.exists_lawful_folder hresult fun _ _ => hrun.lawful_listed hm
  obtain ⟨authored, directories, hfiles⟩ : ∃ authored directories,
      EntryFiles o ignored events _ authored directories := hF.exists_entryFiles hlistings
  rcases List.mem_append.1 (hfiles.files.subset (List.mem_map_of_mem he)) with hfile | hfile
  · obtain ⟨⟨folders, role, name⟩, hmem, hfile⟩ := List.mem_map.1 hfile
    obtain ⟨hfolders, listing, -, hlive⟩ := (hfiles.mem_authored _ _ _).1 hmem
    obtain ⟨entry, -, rfl, hmeaning⟩ := mem_of_mem_liveFiles hlive
    have hname := (liveRole?_eq_some_iff.1 hmeaning).2.2
    have hrole : Convention.ofFileName? entry.name = e.role? := by
      rw [Entry.role?, ← hfile, Options.referenceOf, pathBelow_concat,
        referenceRole?_fileReference _ (isName_of_ofFileName? hname)]
    refine ⟨folders, entry.name, hfolders, hrole, hfile.symm, ?_⟩
    rw [← hfile]
    exact respell_fileReference hfolders (by simp [hname])
  · -- a placeholder means nothing
    obtain ⟨folders, -, hfile⟩ := List.mem_map.1 hfile
    rw [Entry.role?, ← hfile, referenceRole?_reference] at hrole
    exact absurd rfl hrole

/-- Entries are the same under another spelling if it makes the same routes directory, or if there
are only placeholders. -/
theorem Options.map_renamed_respell_eq_self_iff {entries : List Entry}
    (h : ∀ e ∈ Entry.preorderAll entries, o.Respells routes e) :
    entries.map (Entry.renamed (respell (startDirectory o.routes) (startDirectory routes))) =
        entries ↔
      startDirectory o.routes = startDirectory routes ∨
        ∀ e ∈ Entry.preorderAll entries, e.role? = none := by
  rw [Entry.map_renamed_eq_self_iff]
  constructor
  · intro hsame
    by_contra! hapart
    obtain ⟨hstart, e, he, hrole⟩ := hapart
    obtain ⟨folders, name, hfolders, hmeaning, hfile, hrespelled⟩ := (h e he).authored hrole
    rw [hsame e he, hfile] at hrespelled
    exact hstart ((o.referenceOf_eq_iff hfolders (hmeaning ▸ hrole)).1 hrespelled)
  · rintro (hstart | hnone) e he
    · by_cases hrole : e.role? = none
      · exact (h e he).placeholder hrole
      · obtain ⟨folders, name, hfolders, hmeaning, hfile, hrespelled⟩ := (h e he).authored hrole
        rw [hrespelled, hfile]
        exact ((o.referenceOf_eq_iff hfolders (hmeaning ▸ hrole)).2 hstart).symm
    · exact (h e he).placeholder (hnone e he)

/-- **What the spelling of the routes directory changes.** Plain spellings of the same names make
one and the same build. Under any two spellings that lead to one place, if the patterns pass over
the same entries, every run of one build is matched by a run of the other through the same memories:
both fail for the same reason, or both build the same configuration but for the references of the
authored files, which are below the spelling of each. -/
theorem Options.spelling_kept (o : Options) (routes : String) (depth : Nat)
    (hroutes : (Path.location ⟨o.routes⟩).names = (Path.location ⟨routes⟩).names) :
    (∀ names, (∀ n ∈ names, IsName n ∧ n ≠ "." ∧ '\\' ∉ n.toList) →
      SpellsPlainly names o.routes → SpellsPlainly names routes →
        FileRoutes.buildTree { o with routes := routes } depth = FileRoutes.buildTree o depth) ∧
    (o.IgnoresAlike routes → ∀ m events job m', m.Reachable →
      Run storage (FileRoutes.buildTree o depth) m events job m' →
      ∃ events' job', Run storage (FileRoutes.buildTree { o with routes := routes } depth) m events'
          job' m' ∧
        (job.result? = none → job'.result? = none) ∧
        (∀ f, job.result? = some (.error f) →
          ∃ f', job'.result? = some (.error f') ∧ f.SpelledAlike f') ∧
        ∀ tree, job.result? = some (.ok tree) → ∃ tree', job'.result? = some (.ok tree') ∧
          convert tree' = (convert tree).map
            (Entry.renamed (respell (startDirectory o.routes) (startDirectory routes))) ∧
          (∀ e ∈ Entry.preorderAll (convert tree), o.Respells routes e) ∧
          (convert tree' = convert tree ↔ startDirectory o.routes = startDirectory routes ∨
            ∀ e ∈ Entry.preorderAll (convert tree), e.role? = none)) := by
  refine ⟨fun names hnames hplain hplain' => ?_, fun hignored m events job m' hm hrun => ?_⟩
  · have hstart : startDirectory routes = startDirectory o.routes :=
      (startDirectory_of_spellsPlainly hnames hplain').trans
        (startDirectory_of_spellsPlainly hnames hplain).symm
    unfold FileRoutes.buildTree Options.scanSetting
    simp only [hstart]
    rfl
  obtain ⟨events', job', hrun', hmirrors⟩ :=
    (Options.mirrors_buildTree hroutes hignored depth).run hm.wellFormed hrun
  refine ⟨events', job', hrun', hmirrors.result?_eq_none, fun f hf => ?_, fun tree htree => ?_⟩
  · obtain ⟨r', hr', hlikewise⟩ := hmirrors.exists_result? hf
    cases hlikewise with
    | error h => exact ⟨_, hr', h⟩
  · obtain ⟨r', hr', hlikewise⟩ := hmirrors.exists_result? htree
    cases hlikewise with
    | @ok _ tree' hnodes =>
      have hconvert : convert tree' = (convert tree).map
          (Entry.renamed (respell (startDirectory o.routes) (startDirectory routes))) := by
        rw [show tree' = _ from hnodes, convert_map_renamed]
      have hrespells : ∀ e ∈ Entry.preorderAll (convert tree), o.Respells routes e :=
        fun e he => hrun.respells hm htree he
      refine ⟨tree', hr', hconvert, hrespells, ?_⟩
      rw [hconvert, Options.map_renamed_respell_eq_self_iff hrespells]

/-- A slash at the end makes no difference, and a second `./` shows in the references. -/
theorem Options.spelling_kept_users :
    FileRoutes.buildTree { routes := "./routes/" } 4 = FileRoutes.buildTree {} 4 ∧
      ∃ events job m' tree,
        Run storage (FileRoutes.buildTree { routes := "././routes" } 4) users events job m' ∧
          job.result? = some (.ok tree) ∧
          convert tree =
            (convert usersTree).map (Entry.renamed (respell "routes" "./routes")) := by
  have hplain := (Options.spelling_kept {} "./routes/" 4 (by decide)).1 ["routes"] (by decide)
    ⟨"", by decide, 0, 0, by decide⟩ ⟨"./", by decide, 0, 1, by decide⟩
  obtain ⟨events, job, m', hrun, hresult⟩ := exists_run_users
  obtain ⟨events', job', hrun', -, -, hkept⟩ :=
    (Options.spelling_kept {} "././routes" 4 (by decide)).2
      (Options.ignoresAlike_of_ignored_eq_nil rfl) _ _ _ _ (reachable_ofFiles _) hrun
  obtain ⟨tree, htree, hconvert, -, -⟩ := hkept _ hresult
  have hstart : startDirectory "routes" = "routes" := by decide
  have hstart' : startDirectory "././routes" = "./routes" := by decide
  simp only [hstart, hstart'] at hconvert
  exact ⟨hplain, events', job', m', tree, hrun', htree, hconvert⟩

namespace Memory

/-- A page beside a directory of drafts. -/
def pageAndDrafts : Memory :=
  .ofFiles [(⟨"app/src/routes/page.tsx"⟩, ""), (⟨"app/src/routes/drafts/page.tsx"⟩, "")]

/-- Drafts are passed over. -/
def withoutDrafts (routes : String) : Options where
  root := ⟨"app"⟩
  routes := routes
  ignored := ["src/routes/drafts/**"]

/-- A second slash stands in the references, and with it the drafts are not passed over. -/
theorem spelling_matters :
    (Path.location ⟨"src//routes"⟩).names = (Path.location ⟨"src/routes"⟩).names ∧
      (pageAndDrafts.compile (withoutDrafts "src/routes")).1 =
        .ok [.layout ".react-router/layouts/root.layout.tsx" [.index "./src/routes/page.tsx"]] ∧
      (pageAndDrafts.compile (withoutDrafts "src//routes")).1 =
        .ok [.layout ".react-router/layouts/root.layout.tsx"
          [.route "drafts" ".react-router/layouts/drafts.layout.tsx"
            [.index "./src//routes/drafts/page.tsx"], .index "./src//routes/page.tsx"]] := by
  have hplain : (pageAndDrafts.buildTree (withoutDrafts "src/routes")).1 =
      .ok [.layout ".react-router/layouts/root.layout.tsx"
        [.indexPage "./src/routes/page.tsx"]] := by
    decide +kernel
  have hother : (pageAndDrafts.buildTree (withoutDrafts "src//routes")).1 =
      .ok [.layout ".react-router/layouts/root.layout.tsx"
        [.route "drafts" false [.layout ".react-router/layouts/drafts.layout.tsx"
          [.indexPage "./src//routes/drafts/page.tsx"]],
        .indexPage "./src//routes/page.tsx"]] := by
    decide +kernel
  refine ⟨by decide +kernel, ?_, ?_⟩
  · rw [compile_eq, hplain]
    simp [Except.map, Node.layout, Node.indexPage, convert, convertEach, convertNode,
      notFoundRoute?, Entry.layout, Entry.index]
  · rw [compile_eq, hother]
    simp [Except.map, Node.layout, Node.route, Node.indexPage, Node.isLayout, Partition.directory,
      Partition.split, Partition.add, convert, convertEach, convertNode, resolve, hoist,
      notFoundRoute?, Entry.layout, Entry.route, Entry.index]

end Memory

end FileRoutes
