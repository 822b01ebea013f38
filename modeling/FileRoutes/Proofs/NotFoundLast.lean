import FileRoutes.Proofs.Levels
import FileRoutes.Proofs.Placeholders
import FileRoutes.Proofs.Scopes

/-!
# Not-found pages close their level

The conversion puts the entries of the not-found pages of a level behind all others of the level.
What a directory leaves to the level above, if it has no entry of its own, would be put in the
middle; but in the tree of a scan nothing is left to the level above, because directories with
contents have layouts. So no entry for a not-found page is followed by one for something else.

Which entries these are is read off the configuration alone: the name of a file says what it means,
and the names of placeholders mean nothing (`Entry.role?`).

Main result: `Job.Run.notFound_last`, on every interleaved run of a build on any storage.
-/

namespace FileRoutes

/-! ### What a reference means -/

/-- The names that mean something have no slash in them. -/
theorem isName_of_ofFileName? {name : String} {role : Convention}
    (h : Convention.ofFileName? name = some role) : IsName name := by
  obtain ⟨⟨stem, extension⟩, hparts, hstem⟩ := Convention.stem_of_ofFileName? h
  obtain ⟨hsplit, hextension⟩ := Option.filter_eq_some_iff.1 hparts
  have hchars := toList_of_splitLastDot? hsplit
  simp only at hstem
  subst hstem
  have hslash : '/' ∉ role.stem.toList := by cases role <;> decide
  have hslashes : ∀ extension ∈ sourceExtensions, '/' ∉ extension.toList := by decide
  refine ⟨?_, ?_⟩
  · rintro rfl
    simp at hchars
  · simp [hchars, hslash, hslashes extension (by simpa using hextension)]

/-- What a file means by the last name of its reference. -/
def referenceRole? (reference : String) : Option Convention :=
  (Path.namesOf reference).getLast?.bind Convention.ofFileName?

/-- The reference of a file means what its name does. -/
theorem referenceRole?_fileReference {name : String} (directory : String) (h : IsName name) :
    referenceRole? (fileReference (entryPath directory name)) = Convention.ofFileName? name := by
  have hdot : fileReference (entryPath directory name) =
      "." ++ "/" ++ entryPath directory name := by
    simp [fileReference]
  rw [referenceRole?, hdot, Path.namesOf_append_slash, namesOf_entryPath h, ← List.append_assoc,
    List.getLast?_concat]
  rfl

/-- The reference of a placeholder means nothing. -/
theorem referenceRole?_reference (cache : LayoutCache) (directory : String) :
    referenceRole? (cache.reference directory) = none := by
  have hname := LayoutCache.isName_fileName directory
  rw [referenceRole?, LayoutCache.reference, Path.namesOf_append_slash,
    Path.namesOf_of_not_mem hname.2 hname.1, List.getLast?_concat]
  exact ofFileName?_placeholder directory

/-- What the file of an entry means: a page, a layout or a not-found page if it is authored, and
nothing if it is a placeholder. -/
def Entry.role? (e : Entry) : Option Convention :=
  referenceRole? e.file

/-! ### What the files of a tree mean -/

namespace Folder

variable {ignored : IgnoreSet} {cache : LayoutCache} {start path : String} {F : Folder} {n : Node}

/-- A live file means by its reference what it means to its directory. -/
theorem referenceRole?_of_mem_liveFiles {listing : List Listed} {role : Convention} {name : String}
    (h : (role, name) ∈ liveFiles ignored path listing) :
    referenceRole? (fileReference (entryPath path name)) = some role := by
  obtain ⟨e, -, rfl, hlive⟩ := mem_of_mem_liveFiles h
  obtain ⟨-, -, hrole⟩ := liveRole?_eq_some_iff.1 hlive
  rw [referenceRole?_fileReference _ (isName_of_ofFileName? hrole), hrole]

/-- The file of a layout in the tree is that of a layout, or a placeholder. -/
theorem Origin.role_of_isLayout (h : Origin ignored (cache.referenceFor start) path F n)
    (hn : n.isLayout = true) :
    referenceRole? n.file = none ∨ referenceRole? n.file = some .layout := by
  obtain ⟨names, G, -, houter, -⟩ := h.of_isLayout hn
  rcases of_outer?_eq_some houter with hplaceholder | ⟨name, hname, hfile⟩
  · rw [hplaceholder]
    exact .inl (referenceRole?_reference cache _)
  · rw [hfile]
    exact .inr (referenceRole?_of_mem_liveFiles (mem_liveFiles_layout_iff.2 hname))

/-- The file of an index page in the tree is that of a page. -/
theorem Origin.role_of_isIndexPage (h : Origin ignored (cache.referenceFor start) path F n)
    (hn : n.isIndexPage = true) : referenceRole? n.file = some .page := by
  obtain ⟨names, G, name, -, hlive, hfile⟩ := h.of_isIndexPage hn
  rw [hfile, pathBelow_append]
  exact referenceRole?_of_mem_liveFiles hlive

/-- The file of a not-found page in the tree is that of a not-found page. -/
theorem Origin.role_of_notFound (h : Origin ignored (cache.referenceFor start) path F n)
    (hn : n.kind = .notFound) : referenceRole? n.file = some .notFound := by
  cases h with
  | layout _ _ => cases hn
  | folder _ _ => cases hn
  | @page names G _ page hpage =>
    obtain ⟨role, name⟩ := page
    obtain ⟨e, -, he⟩ := List.mem_filterMap.1 hpage
    have hlive : (role, name) ∈ liveFiles ignored (pathBelow path names) G.listing :=
      List.mem_append_right _ hpage
    rcases role_of_livePage? he with rfl | rfl
    · simp [pageNode, Node.indexPage] at hn
    · simpa [pageNode, Node.notFound] using referenceRole?_of_mem_liveFiles hlive

/-- In the configuration of the tree of a scan not-found pages are the last in each level. -/
theorem notFound_last_convert : ∀ level ∈ Entry.levels
      (convert (F.nodes ignored (cache.referenceFor start) path)),
    level.Pairwise fun e f => e.role? = some .notFound → f.role? = some .notFound := by
  intro level hlevel
  have horigin := all_origin_nodes F ignored (cache.referenceFor start) path
  rcases exists_converts_of_mem_levels hlevel with rfl | ⟨nodes, hnodes, rfl⟩
  · exact List.Pairwise.nil
  have hplace : ∀ e ∈ nodes.flatMap convertNode, e.role? ≠ some .notFound := by
    intro e he
    obtain ⟨n, hn, he⟩ := List.mem_flatMap.1 he
    obtain ⟨m, hm, hkind, hfile⟩ := Reached.exists_of_mem_convertNode ⟨nodes, hnodes, hn⟩
      (covered_nodes F ignored (cache.referenceFor start) path) he
    rw [Entry.role?, hfile]
    rcases hkind with hlayout | hindex
    · rcases (horigin m hm).role_of_isLayout hlayout with h | h <;> simp [h]
    · simp [(horigin m hm).role_of_isIndexPage hindex]
  have hclosing : ∀ e ∈ nodes.filterMap notFoundRoute?, e.role? = some .notFound := by
    intro e he
    obtain ⟨n, hn, hentry⟩ := List.mem_filterMap.1 he
    obtain ⟨hkind, rfl⟩ := notFoundRoute?_eq_some_iff.1 hentry
    exact (horigin n (Reached.mem ⟨nodes, hnodes, hn⟩)).role_of_notFound hkind
  rw [convert_eq]
  refine List.pairwise_append.2 ⟨?_, ?_, fun e _ f hf _ => hclosing f hf⟩
  · exact List.pairwise_of_forall_mem_list fun e he f _ h => absurd h (hplace e he)
  · exact List.pairwise_of_forall_mem_list fun e _ f hf _ => hclosing f hf

end Folder

/-- **Not-found pages close every level**: in every run of a build that returns a tree, on any
storage, no entry with the file of a not-found page is followed by a sibling with another file. -/
theorem Job.Run.notFound_last {σ : Type} {storage : Storage (StateM σ)} {o : Options} {depth : Nat}
    {s s' : σ} {events : List Event} {job : Job (List Node)} {tree : List Node}
    (hrun : Job.Run storage (buildTree o depth) s events job s')
    (hresult : job.result? = some (.ok tree)) :
    ∀ level ∈ Entry.levels (convert tree),
      level.Pairwise fun e f => e.role? = some .notFound → f.role? = some .notFound := by
  obtain ⟨ignored, F, -, -, rfl, -⟩ := hrun.exists_folder hresult
  exact Folder.notFound_last_convert

/-- The not-found page of the users closes its level. -/
theorem Job.Run.notFound_last_users : ∃ events job m',
    Job.Run Memory.storage (buildTree {} 4) Memory.users events job m' ∧
      job.result? = some (.ok Memory.usersTree) ∧
      ∀ level ∈ Entry.levels (convert Memory.usersTree),
        level.Pairwise fun e f => e.role? = some .notFound → f.role? = some .notFound := by
  obtain ⟨events, job, m', hrun, hresult⟩ := Memory.exists_run_users
  exact ⟨events, job, m', hrun, hresult, Job.Run.notFound_last hrun hresult⟩

end FileRoutes
