import FileRoutes.Proofs.Patterns
import FileRoutes.Proofs.Schedule

/-!
# When a build fails

A build on a memory fails for one of three reasons: a pattern is malformed, the routes directory is
not there, or a placeholder is wanted while a file stands where the cache directory should be, which
is then neither made nor found (`Memory.Blocked`). Nothing else goes wrong, in whatever order the
calls are made: every directory that is listed in another one is there when its turn comes, also
where that is the cache itself, which other tasks of the build have just made, and every other
placeholder finds the directory that it is written into. A build that fails leaves all as it was.

The proof goes two ways. While the cache is blocked, a build changes nothing, so it returns what can
be read off depth first, and that is decided by the placeholders that are wanted
(`Scan.decidedBy_depthFirst`). Otherwise its tasks may change what other tasks are shown, where the
cache is in the routes directory, and of the tree nothing can be said beforehand but that there will
be one (`Scan.ensures_directory_succeeds`).

Main result: `Job.Run.fails_iff`.
-/

namespace FileRoutes

open Memory Job

variable {o : Options} {cache : LayoutCache} {m s t : Memory} {ignored : IgnoreSet} {f : Fault}

/-! ### A cache that cannot be made -/

/-- A file stands where the cache directory should be. -/
structure Memory.Blocked (m : Memory) (cache : LayoutCache) : Prop where
  named : cache.path.location.isEmpty = false
  file : cache.path.location ∈ m.fileLocations
  not_directory : cache.path.location ∉ m.dirs

namespace Memory

/-- A blocked cache takes no files. -/
theorem Blocked.takesFiles (h : m.Blocked cache) : m.takesFiles cache.path.location = false := by
  simp [Memory.takesFiles, h.named, isDirectory, h.not_directory]

/-- A cache that takes no files although something is there is blocked. -/
theorem blocked_iff : m.Blocked cache ↔
    m.contains cache.path = true ∧ m.takesFiles cache.path.location = false := by
  constructor
  · exact fun h => ⟨contains_iff.2 (.inr h.file), h.takesFiles⟩
  · rintro ⟨hthere, htakes⟩
    obtain ⟨hnamed, hdirectory⟩ : cache.path.location.isEmpty = false ∧
        cache.path.location ∉ m.dirs := by
      simpa [Memory.takesFiles, isDirectory] using htakes
    exact ⟨hnamed, (contains_iff.1 hthere).resolve_left hdirectory, hdirectory⟩

/-- No placeholder is there while the cache is blocked. -/
theorem WellFormed.contains_filePath_of_blocked (hm : m.WellFormed) (h : m.Blocked cache)
    (directory : String) : m.contains (cache.filePath directory) = false := by
  by_contra hthere
  have htakes := hm.takesFiles_of_contains (Bool.not_eq_false _ ▸ hthere)
  simp [h.takesFiles] at htakes

/-- A placeholder is refused while the cache is blocked. -/
theorem WellFormed.placeholder_of_blocked (hm : m.WellFormed) (h : m.Blocked cache)
    (directory : String) : m.placeholder (fun _ _ => none) cache directory =
      .error (.placeholder (.noParent (cache.filePath directory).location)) := by
  obtain ⟨hthere, htakes⟩ := blocked_iff.1 h
  simp [placeholder, placeholderFile, hthere, htakes, hm.contains_filePath_of_blocked h]

/-- A placeholder is refused at no other time. -/
theorem placeholder_of_not_blocked (h : ¬ m.Blocked cache) (directory : String) :
    m.placeholder (fun _ _ => none) cache directory = .ok (cache.reference directory) := by
  rw [blocked_iff, not_and, Bool.not_eq_false] at h
  unfold placeholder placeholderFile
  cases hthere : m.contains cache.path with
  | true => simp [h hthere]
  | false => simp

end Memory

/-! ### What decides a scan -/

namespace Scan

variable {faults : Faults} {names : List String} {depth : Nat}

/-- What is told of the placeholders of the directories decides the result: all are given if it is
no fault, and otherwise the fault is that of one of them. -/
structure DecidedBy (faults : Faults) (o : Options) (m : Memory) (directories : List String)
    (r : Except Fault (List Node)) : Prop where
  ok : ∀ nodes, r = .ok nodes →
    ∀ d ∈ directories, ∃ file, m.placeholder faults o.cache d = .ok file
  error : ∀ f, r = .error f → ∃ d ∈ directories, m.placeholder faults o.cache d = .error f

/-- Wrapping is decided by the placeholder, if one is wanted. -/
theorem decidedBy_wrapped (path : String) (layout? : Option String) (nodes : List Node) :
    DecidedBy faults o m (wanted o path layout? nodes)
      (wrapped faults o m path layout? nodes) := by
  unfold wanted wrapped
  cases layout? with
  | some layout => exact ⟨by simp, by simp⟩
  | none =>
    cases hneeds : needsPlaceholder nodes with
    | false => exact ⟨by simp, by simp⟩
    | true =>
      cases hplaceholder : m.placeholder faults o.cache
          (routeDirectory (startDirectory o.routes) path) with
      | ok file => exact ⟨by simp [hplaceholder], by simp⟩
      | error g => exact ⟨by simp, by simp [hplaceholder]⟩

/-- After a directory is listed, the directories found in it decide, and then its own placeholder
does. -/
theorem decidedBy_gathered {scanned : String → Except Fault (List Node)}
    {below : String → List String} {path : String} {findings : List Finding}
    (h : ∀ found ∈ directoryPaths findings, DecidedBy faults o m (below found) (scanned found)) :
    DecidedBy faults o m (wantedAfter o scanned below path findings)
      (gathered faults o m scanned path findings) := by
  unfold gathered wantedAfter
  cases hgather : gather ((directoryPaths findings).map scanned) with
  | error g =>
    obtain ⟨found, hfound, hfailed⟩ := List.mem_map.1 (error_mem_of_gather hgather)
    obtain ⟨d, hd, hrefused⟩ := (h found hfound).error g hfailed
    have hmem : d ∈ (directoryPaths findings).flatMap below ++ [] := by
      simpa using ⟨found, hfound, hd⟩
    refine ⟨by simp, fun f hf => ⟨d, hmem, ?_⟩⟩
    rwa [← Except.error.inj hf]
  | ok inside =>
    have hwrapped := @decidedBy_wrapped o m faults path (layoutPath? findings)
      (Node.sortSiblings (nodesOf findings inside))
    refine ⟨fun nodes hnodes => List.forall_mem_append.2 ⟨fun d hd => ?_, hwrapped.ok nodes hnodes⟩,
      fun f hf => ?_⟩
    · obtain ⟨found, hfound, hd⟩ := List.mem_flatMap.1 hd
      have hmem : scanned found ∈ inside.map .ok :=
        gather_eq_ok_iff.1 hgather ▸ List.mem_map_of_mem hfound
      obtain ⟨nodes, -, hscanned⟩ := List.mem_map.1 hmem
      exact (h found hfound).ok nodes hscanned.symm d hd
    · obtain ⟨d, hd, hrefused⟩ := hwrapped.error f hf
      exact ⟨d, List.mem_append_right _ hd, hrefused⟩

/-- **The placeholders that are wanted decide a scan**, if its directory is there and no listing is
set up to fail. -/
theorem decidedBy_depthFirst (hm : m.WellFormed) (hlists : ∀ path, faults .list path = none)
    (hnames : ∀ name ∈ names, IsName name ∧ name ≠ ".")
    (hstored : o.routesLocation.descend names ∈ m.dirs)
    (hdepth : m.depth < (o.routesLocation.descend names).names.length + depth) :
    DecidedBy faults o m
      (wantedBelow faults o ignored m depth (pathBelow (startDirectory o.routes) names))
      (depthFirst faults o ignored m depth (pathBelow (startDirectory o.routes) names)) := by
  induction depth generalizing names with
  | zero =>
    have hlength := length_le_depth hstored
    omega
  | succ depth ih =>
    obtain ⟨listing, hlist⟩ : ∃ listing,
        m.list (o.root.join (pathBelow (startDirectory o.routes) names)) = .ok listing := by
      rw [← o.location_join_pathBelow hnames] at hstored
      exact ⟨_, list_eq_ok_iff.2 ⟨hstored, rfl⟩⟩
    have hshown : shownListing faults o m (pathBelow (startDirectory o.routes) names) =
        .ok listing := by
      rw [shownListing, hlists, hlist]
    rw [depthFirst, wantedBelow, hshown]
    refine decidedBy_gathered fun below hbelow => ?_
    obtain ⟨name, hname, he, -, rfl⟩ := exists_of_mem_directoryPaths hm.lawful hlist hbelow
    have hlonger := o.routesLocation.length_names_descend_concat names name
    refine ih ?_ (descend_mem_dirs_of_mem_list hnames hlist he) (by omega)
    exact List.forall_mem_append.2 ⟨hnames, by simpa using hname⟩

end Scan

/-! ### While the cache is blocked -/

namespace Job

/-- A call that leaves the state as it is, among no other tasks. -/
theorem Ensures.call_eq {α σ : Type} {storage : Storage (StateM σ)} {c : Call}
    {next : Except Fault c.Reply → Job α} {s : σ} {post : Except Fault α → σ → Prop}
    {reply : Except Fault c.Reply} (hanswer : storage.answer c s = (reply, s))
    (k : Ensures storage Eq (next reply) s post) : Ensures storage Eq (.call c next) s post := by
  refine .call (fun t ht => ?_) fun t ht => ?_
  · rw [← ht, hanswer]
  · rw [← ht, hanswer]
    exact k

end Job

namespace Scan

/-- A memory that stays as it is shows what it shows. -/
theorem shows_same : Shows storage Eq (fun _ _ => none) o m m := by
  rintro names - _ rfl
  exact ⟨rfl, rfl⟩

/-- While the cache is blocked, a placeholder is refused without a trace. -/
theorem tells_of_blocked (hm : m.WellFormed) (hblocked : m.Blocked o.cache) :
    Tells storage Eq (fun _ _ => none) o m (fun _ => True) (fun _ _ => True) m where
  source {d _ next post} _ hs hnext := by
    obtain rfl := hs
    obtain ⟨hthere, htakes⟩ := blocked_iff.1 hblocked
    have hcache := answer_probe_of_contains hthere
    have hfile := answer_probe_of_contains (hm.contains_filePath_of_blocked hblocked d)
    have hwrite : storage.answer (.write (o.cache.filePath d) placeholderContents) m =
        (.error (.noParent (o.cache.filePath d).location), m) := by
      simp [Storage.answer, storage, StateT.run, write_filePath_eq_error _ _ htakes]
    rw [hm.placeholder_of_blocked hblocked] at hnext
    exact .call_eq hcache (.call_eq hfile (.call_eq hwrite (hnext m rfl fun _ _ => trivial)))
  stays _ _ := trivial

end Scan

/-! ### While the cache is not blocked -/

namespace Memory

variable {faults : Faults} {allowed : String → Prop}

/-- What is stored in a memory that has grown has lawful names. -/
theorem Grows.lawful (h : Grows faults cache allowed s t) (hs : ∀ l, s.Stores l → l.Lawful) :
    ∀ l, t.Stores l → l.Lawful := by
  rintro l (hdirectory | hfile)
  · rcases h.mem_dirs hdirectory with hold | hnew
    · exact hs l (.inl hold)
    · exact (Location.lawful_location cache.path).of_mem_withAncestors hnew
  · rcases h.mem_fileLocations hfile with hold | ⟨d, rfl, -⟩
    · exact hs l (.inr hold)
    · exact Location.lawful_location (cache.filePath d)

/-- The directories of a memory that has grown are not deeper than before, or than the cache. -/
theorem Grows.length_le (h : Grows faults cache allowed s t) {l : Location} (hl : l ∈ t.dirs) :
    l.names.length ≤ max s.depth cache.path.location.names.length := by
  rcases h.mem_dirs hl with hold | hnew
  · exact (length_le_depth hold).trans (le_max_left _ _)
  · have hbegins := (Location.names_prefix_of_mem_withAncestors hnew).2
    exact hbegins.length_le.trans (le_max_right _ _)

end Memory

namespace Scan

variable {faults : Faults} {names : List String} {depth : Nat} {allowed : String → Prop}

/-- Wrapping succeeds where every placeholder is given. -/
theorem ensures_wrap_succeeds (hgiven : ∀ d, ∃ file, m.placeholder faults o.cache d = .ok file)
    (hs : Grows faults o.cache (fun _ => True) m s) {path : String} {layout? : Option String}
    {nodes : List Node} :
    Ensures (storage.faulty faults) (Grows faults o.cache fun _ => True)
      (wrap (o.scanSetting ignored) path layout? nodes) s fun r _ => ∃ nodes, r = .ok nodes := by
  refine (ensures_wrap (tells_of_grows (listsApart_faulty faults)) hs
    fun _ _ => trivial).imp fun r t _ hr => ?_
  rw [hr.1]
  cases hwrapped : wrapped faults o m path layout? nodes with
  | ok around => exact ⟨around, rfl⟩
  | error f =>
    obtain ⟨d, -, hrefused⟩ := (decidedBy_wrapped path layout? nodes).error f hwrapped
    obtain ⟨file, hfile⟩ := hgiven d
    simp [hfile] at hrefused

/-- **A scan of a directory that is there succeeds** where no listing is set up to fail and every
placeholder is given, whatever other tasks make of the cache meanwhile. -/
theorem ensures_directory_succeeds (hm : m.WellFormed)
    (hlists : ∀ path, faults .list path = none)
    (hgiven : ∀ d, ∃ file, m.placeholder faults o.cache d = .ok file)
    (hnames : ∀ name ∈ names, IsName name ∧ name ≠ ".")
    (hs : Grows faults o.cache (fun _ => True) m s)
    (hstored : o.routesLocation.descend names ∈ s.dirs)
    (hdepth : max m.depth o.cache.path.location.names.length <
      (o.routesLocation.descend names).names.length + depth) :
    Ensures (storage.faulty faults) (Grows faults o.cache fun _ => True)
      (directory (o.scanSetting ignored) depth (pathBelow (startDirectory o.routes) names)) s
      fun r _ => ∃ nodes, r = .ok nodes := by
  induction depth generalizing names s with
  | zero =>
    have hlength := hs.length_le hstored
    omega
  | succ depth ih =>
    have hanswer : ∀ t, (storage.faulty faults).answer
        (.list ((o.scanSetting ignored).root.join (pathBelow (startDirectory o.routes) names))) t =
          (t.list (o.root.join (pathBelow (startDirectory o.routes) names)), t) := fun t => by
      rw [answer_list, hlists]
      rfl
    refine .call (fun t ht => ?_) fun t ht => ?_
    · rw [hanswer t]
      exact .refl t
    -- the directory is still there, and what it lists now is there as well
    obtain ⟨listing, hlist⟩ : ∃ listing,
        t.list (o.root.join (pathBelow (startDirectory o.routes) names)) = .ok listing := by
      refine ⟨_, list_eq_ok_iff.2 ⟨?_, rfl⟩⟩
      rw [o.location_join_pathBelow hnames]
      exact ht.mem_dirs_of_mem hstored
    rw [hanswer t, hlist]
    refine .fork_map _ (fun _ r _ => ∃ nodes, r = .ok nodes) (fun below hbelow => ?_)
      (fun u _ hu _ => ensures_wrap_succeeds hgiven (hs.trans (ht.trans hu)))
      fun _ _ _ _ _ _ _ _ hfailed => by simp at hfailed
    have hlawful := (hs.trans ht).lawful hm.lawful
    obtain ⟨name, hname, he, -, rfl⟩ := exists_of_mem_directoryPaths hlawful hlist hbelow
    have hlonger := o.routesLocation.length_names_descend_concat names name
    refine ih ?_ (hs.trans ht) (descend_mem_dirs_of_mem_list hnames hlist he) (by omega)
    exact List.forall_mem_append.2 ⟨hnames, by simpa using hname⟩

end Scan

/-! ### Reasons to fail -/

/-- Why a build fails, with the fault that it returns. -/
inductive Options.FailsWith (o : Options) (m : Memory) : Fault → Prop
  /-- An ignore pattern is malformed. -/
  | pattern {text : String} {e : Glob.PatternError} (hmem : text ∈ o.ignored)
    (hmalformed : Glob.Pattern.ofText text = .error e) : o.FailsWith m (.ignorePattern text e)
  /-- The routes directory is not there. -/
  | routes (hmissing : o.routesLocation ∉ m.dirs) :
    o.FailsWith m (.routeDirectory (o.root.join (startDirectory o.routes))
      (.noDirectory o.routesLocation))
  /-- The scan comes to a directory that needs a placeholder, as it has nodes but no layout among
  them nor for itself, and the cache is blocked. -/
  | cache (hblocked : m.Blocked o.cache) {directory : String}
    (hwanted : directory ∈ o.wanted (fun _ _ => none) m (m.scanDepth o)) :
    o.FailsWith m (.placeholder (.noParent (o.cache.filePath directory).location))

namespace Options.FailsWith

/-- Patterns that cannot be read are a reason to fail. -/
theorem of_ofTexts_eq_error (hignored : IgnoreSet.ofTexts o.ignored = .error f) :
    o.FailsWith m f := by
  obtain ⟨before, text, after, e, hsplit, -, he, rfl⟩ := IgnoreSet.ofTexts_eq_error_iff.1 hignored
  exact .pattern (by simp [hsplit]) he

/-- The cache is the only reason left where the patterns can be read and the routes directory is
there. -/
theorem exists_wanted (h : o.FailsWith m f) (hignored : IgnoreSet.ofTexts o.ignored = .ok ignored)
    (hstored : o.routesLocation ∈ m.dirs) :
    m.Blocked o.cache ∧ ∃ d, d ∈ o.wanted (fun _ _ => none) m (m.scanDepth o) := by
  cases h with
  | pattern hmem he =>
    obtain ⟨f, hf⟩ := IgnoreSet.exists_ofTexts_eq_error hmem he
    simp [hignored] at hf
  | routes hmissing => exact absurd hstored hmissing
  | cache hblocked hwanted => exact ⟨hblocked, _, hwanted⟩

end Options.FailsWith

/-- While the cache is blocked, what is read off a memory depth first is a fault exactly if there is
a reason to fail. -/
theorem Memory.WellFormed.failsWith_of_blocked (hm : m.WellFormed) {depth : Nat}
    (hdepth : m.scanDepth o ≤ depth) (hignored : IgnoreSet.ofTexts o.ignored = .ok ignored)
    (hstored : o.routesLocation ∈ m.dirs) (hblocked : m.Blocked o.cache) :
    (∀ f, o.depthFirst (fun _ _ => none) m depth = .error f → o.FailsWith m f) ∧
      ∀ f, o.FailsWith m f → ∃ g, o.depthFirst (fun _ _ => none) m depth = .error g := by
  have hdecided : Scan.DecidedBy (fun _ _ => none) o m (o.wanted (fun _ _ => none) m depth)
      (o.depthFirst (fun _ _ => none) m depth) := by
    unfold Options.wanted Options.depthFirst
    rw [hignored]
    exact @Scan.decidedBy_depthFirst o m ignored (fun _ _ => none) [] depth hm (fun _ => rfl)
      (by simp) (by simpa using hstored) (by simp only [Memory.scanDepth] at hdepth; omega)
  rw [(hm.build_congr (.refl m) le_rfl hdepth).2] at hdecided
  constructor
  · intro f hf
    obtain ⟨d, hd, hrefused⟩ := hdecided.error f hf
    rw [hm.placeholder_of_blocked hblocked] at hrefused
    obtain rfl := Except.error.inj hrefused
    exact .cache hblocked hd
  · intro f hf
    obtain ⟨-, d, hd⟩ := hf.exists_wanted hignored hstored
    cases hresult : o.depthFirst (fun _ _ => none) m depth with
    | error g => exact ⟨g, rfl⟩
    | ok nodes =>
      obtain ⟨file, hfile⟩ := hdecided.ok nodes hresult d hd
      simp [hm.placeholder_of_blocked hblocked] at hfile

/-! ### Exactly when a build fails -/

namespace Job

variable {m' : Memory} {depth : Nat} {events : List Event} {job : Job (List Node)}

/-- Where the patterns cannot be read, a build has failed before it makes a call. -/
theorem Run.of_ofTexts_eq_error (hignored : IgnoreSet.ofTexts o.ignored = .error f)
    (hrun : Run storage (FileRoutes.buildTree o depth) m events job m') :
    job = .done (.error f) ∧ m' = m ∧ events = [] := by
  unfold FileRoutes.buildTree at hrun
  rw [hignored] at hrun
  cases hrun with
  | refl => exact ⟨rfl, rfl, rfl⟩
  | step hstep _ => cases hstep

/-- Where the routes directory is not there, a build fails at once. -/
theorem Run.of_not_mem_dirs (hignored : IgnoreSet.ofTexts o.ignored = .ok ignored)
    (hmissing : o.routesLocation ∉ m.dirs) (hdepth : 0 < depth)
    (hrun : Run storage (FileRoutes.buildTree o depth) m events job m') :
    m' = m ∧ ∀ r, job.result? = some r → r =
      .error (.routeDirectory (o.root.join (startDirectory o.routes))
        (.noDirectory o.routesLocation)) := by
  obtain ⟨depth, rfl⟩ := Nat.exists_eq_succ_of_ne_zero hdepth.ne'
  have hanswer : storage.answer
      (.list ((o.scanSetting ignored).root.join (o.scanSetting ignored).start)) m =
        (.error (.noDirectory o.routesLocation), m) := by
    have hnone : ¬ m.isDirectory o.routesLocation = true := by rwa [isDirectory_iff]
    exact congrArg (Prod.mk · m) (if_neg hnone)
  have hensures : Ensures storage Eq (FileRoutes.buildTree o (depth + 1)) m fun r _ =>
      r = .error (.routeDirectory (o.root.join (startDirectory o.routes))
        (.noDirectory o.routesLocation)) := by
    unfold FileRoutes.buildTree
    rw [hignored]
    exact .call_eq hanswer (.done fun _ _ => rfl)
  obtain ⟨hsame, hjob⟩ := hensures.run hrun
  exact ⟨hsame.symm, fun r hr => hjob.post_of_result? hr⟩

/-- While the cache is blocked, a build changes nothing, and returns what can be read off the memory
depth first. -/
theorem Run.of_blocked (hm : m.WellFormed) (hblocked : m.Blocked o.cache)
    (hrun : Run storage (FileRoutes.buildTree o depth) m events job m') :
    m' = m ∧ ∀ r, job.result? = some r → r = o.depthFirst (fun _ _ => none) m depth := by
  obtain ⟨hsame, hjob⟩ := (Scan.ensures_buildTree_of_tells hm Scan.shows_same
    (Scan.tells_of_blocked hm hblocked) fun _ _ => trivial).run hrun
  exact ⟨hsame.symm, fun r hr => (hjob.post_of_result? hr).1⟩

/-- Where the routes directory is there and the cache is not blocked, a build succeeds. -/
theorem Run.exists_eq_ok (hm : m.WellFormed) (hdepth : m.scanDepth o ≤ depth)
    (hignored : IgnoreSet.ofTexts o.ignored = .ok ignored) (hstored : o.routesLocation ∈ m.dirs)
    (hopen : ¬ m.Blocked o.cache)
    (hrun : Run storage (FileRoutes.buildTree o depth) m events job m') :
    ∀ r, job.result? = some r → ∃ nodes, r = .ok nodes := by
  rw [← storage.faulty_none] at hrun
  have hensures := @Scan.ensures_directory_succeeds o m m ignored (fun _ _ => none) [] depth hm
    (fun _ => rfl) (fun d => ⟨_, placeholder_of_not_blocked hopen d⟩) (by simp) (.refl m)
    (by simpa using hstored) (by simp only [Memory.scanDepth] at hdepth; omega)
  unfold FileRoutes.buildTree at hrun
  rw [hignored] at hrun
  exact fun r hr => (hensures.run hrun).2.post_of_result? hr

/-- What a run of a build returns, and what it leaves, for each of the reasons to fail. -/
theorem Run.failsWith (hm : m.WellFormed) (hdepth : m.scanDepth o ≤ depth)
    (hrun : Run storage (FileRoutes.buildTree o depth) m events job m') :
    (∀ r, job.result? = some r →
      (∀ f, r = .error f → o.FailsWith m f) ∧ ∀ f, o.FailsWith m f → ∃ g, r = .error g) ∧
    ∀ f, o.FailsWith m f → m' = m := by
  cases hignored : IgnoreSet.ofTexts o.ignored with
  | error f =>
    obtain ⟨rfl, rfl, -⟩ := hrun.of_ofTexts_eq_error hignored
    refine ⟨fun r hr => ?_, fun _ _ => rfl⟩
    obtain rfl := Option.some.inj ((result?_done _).symm.trans hr)
    refine ⟨fun g hg => ?_, fun _ _ => ⟨f, rfl⟩⟩
    obtain rfl := Except.error.inj hg
    exact .of_ofTexts_eq_error hignored
  | ok ignored =>
    by_cases hstored : o.routesLocation ∈ m.dirs
    · by_cases hblocked : m.Blocked o.cache
      · obtain ⟨hsame, hresult⟩ := hrun.of_blocked hm hblocked
        obtain ⟨hreason, hfails⟩ := hm.failsWith_of_blocked hdepth hignored hstored hblocked
        refine ⟨fun r hr => ?_, fun _ _ => hsame⟩
        obtain rfl := hresult r hr
        exact ⟨hreason, hfails⟩
      · have hnone : ∀ f, ¬ o.FailsWith m f := fun f hf =>
          hblocked (hf.exists_wanted hignored hstored).1
        refine ⟨fun r hr => ?_, fun f hf => absurd hf (hnone f)⟩
        obtain ⟨nodes, rfl⟩ := hrun.exists_eq_ok hm hdepth hignored hstored hblocked r hr
        exact ⟨nofun, fun f hf => absurd hf (hnone f)⟩
    · have hpositive : 0 < depth := by
        unfold Memory.scanDepth at hdepth
        omega
      obtain ⟨rfl, hresult⟩ := hrun.of_not_mem_dirs hignored hstored hpositive
      refine ⟨fun r hr => ?_, fun _ _ => rfl⟩
      obtain rfl := hresult r hr
      refine ⟨fun f hf => ?_, fun _ _ => ⟨_, rfl⟩⟩
      obtain rfl := Except.error.inj hf
      exact .routes hstored

/-- **Exactly when a build fails.** In every order of its calls, a build on a memory fails if and
only if a pattern is malformed, the routes directory is not there, or a directory needs a
placeholder while the cache is blocked; the fault is that of one of these reasons. If there is one,
the memory stays what it is at every moment of the run, and if it is a malformed pattern, no call is
made. In any case the build comes to a result. In particular this is so for the build call after
call that a compilation runs. -/
theorem Run.fails_iff (hm : m.Reachable) (hdepth : m.scanDepth o ≤ depth)
    (hrun : Run storage (FileRoutes.buildTree o depth) m events job m') :
    (∀ r, job.result? = some r → ((∃ f, r = .error f) ↔ ∃ f, o.FailsWith m f) ∧
      ∀ f, r = .error f → o.FailsWith m f) ∧
    ((∃ f, o.FailsWith m f) → m' = m) ∧
    ((∃ text ∈ o.ignored, ∃ e, Glob.Pattern.ofText text = .error e) → events = []) ∧
    ((∃ r, job.result? = some r) ∨ ∃ next, StepsTo storage (job, m') next) ∧
    Acc (fun b a => StepsTo storage a b) (job, m') ∧
    ((∃ f, (m.compile o).1 = .error f) ↔ ∃ f, o.FailsWith m f) := by
  obtain ⟨hresult, hsame⟩ := hrun.failsWith hm.wellFormed hdepth
  refine ⟨fun r hr => ?_, fun ⟨f, hf⟩ => hsame f hf, ?_,
    result?_isSome_or_exists_step storage job m', (wellFounded_stepsTo storage).apply _, ?_⟩
  · obtain ⟨hreason, hfails⟩ := hresult r hr
    exact ⟨⟨fun ⟨f, hf⟩ => ⟨f, hreason f hf⟩, fun ⟨f, hf⟩ => hfails f hf⟩, hreason⟩
  · rintro ⟨text, hmem, e, he⟩
    obtain ⟨f, hignored⟩ := IgnoreSet.exists_ofTexts_eq_error hmem he
    exact (hrun.of_ofTexts_eq_error hignored).2.2
  · -- compiling runs the build call after call
    obtain ⟨events', job', hrun', hresult'⟩ :=
      exists_run_sequential storage (FileRoutes.buildTree o (m.scanDepth o)) m
    obtain ⟨hreason, hfails⟩ := (hrun'.failsWith hm.wellFormed le_rfl).1 _ hresult'
    have hmap : ∀ f, (m.compile o).1 = .error f ↔ (m.buildTree o).1 = .error f := by
      intro f
      rw [compile_eq]
      cases (m.buildTree o).1 <;> simp [Except.map]
    simp only [hmap]
    exact ⟨fun ⟨f, hf⟩ => ⟨f, hreason f hf⟩, fun ⟨f, hf⟩ => hfails f hf⟩

end Job

/-! ### An example -/

/-- A file where the cache should be, and a page. -/
def Memory.obstructed : Memory :=
  .ofFiles [(⟨"app/.react-router/layouts"⟩, ""), (⟨"app/routes/page.tsx"⟩, "")]

/-- The page needs a placeholder, so the build fails and leaves all as it was. -/
theorem Job.Run.fails_iff_obstructed : ∃ events job m',
    Run storage (FileRoutes.buildTree {} (obstructed.scanDepth {})) obstructed events job m' ∧
      job.result? = some (.error (.placeholder (.noParent
        ⟨false, ["app", ".react-router", "layouts", "root.layout.tsx"]⟩))) ∧
      Options.FailsWith {} obstructed (.placeholder (.noParent
        ⟨false, ["app", ".react-router", "layouts", "root.layout.tsx"]⟩)) ∧
      m' = obstructed ∧ ∃ f, (obstructed.compile {}).1 = .error f := by
  obtain ⟨events, job, hrun, hresult⟩ := Job.exists_run_sequential storage
    (FileRoutes.buildTree {} (obstructed.scanDepth {})) obstructed
  have hfault : (((FileRoutes.buildTree {} (obstructed.scanDepth {})).run storage).run
      obstructed).1 = .error (.placeholder (.noParent
        ⟨false, ["app", ".react-router", "layouts", "root.layout.tsx"]⟩)) := by
    decide +kernel
  rw [hfault] at hresult
  obtain ⟨hreason, hsame, -, -, -, hcompile⟩ :=
    Job.Run.fails_iff (reachable_ofFiles _) le_rfl hrun
  have hfails := (hreason _ hresult).2 _ rfl
  exact ⟨events, job, _, hrun, hresult, hfails, hsame ⟨_, hfails⟩, hcompile.2 ⟨_, hfails⟩⟩

end FileRoutes
