import FileRoutes.Proofs.Live
import FileRoutes.Proofs.Rearranged
import FileRoutes.Proofs.Schedule

/-!
# The order of listings

A storage may list its directories in any order. Where no directory has two live layouts, a build
returns the same tree up to the order of siblings whatever that order is, and it fails on all of
them if it fails on one: by induction on the depth, each scan **agrees** with the depth-first scan
of the memory that the build starts from (`Job.ensures_buildTree_reordered`).

A layout cache in the routes directory does no harm if it is there from the start. The placeholders
that appear in it while others are scanned mean nothing to the scan (`Memory.Grows.agree_list`). A
cache directory that appears in a directory which is still to be listed, though, is one more entry
there.

Converting keeps this, if no directory of the tree holds two layouts. A directory can hold more than
one without having two of its own, where layouts are those of private directories in it.

Main result: `Job.Run.nesting_kept`.
-/

namespace FileRoutes

/-! ### Results that agree -/

/-- Both have failed, or both have succeeded with values that `R` relates. -/
inductive Agree {α β : Type} (R : α → β → Prop) : Except Fault α → Except Fault β → Prop
  | ok {a : α} {b : β} (h : R a b) : Agree R (.ok a) (.ok b)
  | error (f g : Fault) : Agree R (.error f) (.error g)

namespace Agree

variable {α β γ δ : Type} {R : α → β → Prop} {S : γ → δ → Prop} {r : Except Fault α}
  {r' : Except Fault β}

/-- Results that agree do so after a change to the values. -/
theorem map (h : Agree R r r') {f : α → γ} {g : β → δ}
    (himp : ∀ a b, r = .ok a → R a b → S (f a) (g b)) : Agree S (r.map f) (r'.map g) := by
  cases h with
  | ok h => exact .ok (himp _ _ rfl h)
  | error f g => exact .error f g

/-- Two results that agree with a third one agree with each other. -/
theorem both {T : α → γ → Prop} {r'' : Except Fault γ} (h : Agree R r r') (k : Agree T r r'') :
    Agree (fun b c => ∃ a, R a b ∧ T a c) r' r'' := by
  cases h with
  | ok h =>
    cases k with
    | ok k => exact .ok ⟨_, h, k⟩
  | error f g =>
    cases k with
    | error _ g' => exact .error g g'

theorem exists_eq_ok {b : β} (h : Agree R r (.ok b)) : ∃ a, r = .ok a ∧ R a b := by
  cases h with
  | ok h => exact ⟨_, rfl, h⟩

/-- Results that agree with values one by one are values themselves. -/
theorem exists_values {ι : Type} [Inhabited α] {items : List ι} {known : ι → Except Fault α}
    {values : List β} (h : List.Forall₂ (fun i b => Agree R (known i) (.ok b)) items values) :
    ∃ value : ι → α, (∀ i ∈ items, known i = .ok (value i)) ∧
      List.Forall₂ (fun i b => R (value i) b) items values := by
  refine ⟨fun i => (known i).toOption.getD default, (List.forall₂_and_left _ _).1 ?_⟩
  refine h.imp fun i b hi => ?_
  obtain ⟨a, ha, hab⟩ := hi.exists_eq_ok
  simpa [ha, Except.toOption] using hab

theorem exists_eq_error {g : Fault} (h : Agree R r (.error g)) : ∃ f, r = .error f := by
  cases h with
  | error f => exact ⟨f, rfl⟩

end Agree

/-! ### Storages that list in another order -/

namespace Storage

variable {σ : Type}

/-- The answer to a listing has its entries in another order. -/
theorem answer_reordered_list (order : Path → List Listed → List Listed)
    (storage : Storage (StateM σ)) (path : Path) (s : σ) :
    (storage.reordered order).answer (.list path) s =
      ((storage.answer (.list path) s).1.map (order path), (storage.answer (.list path) s).2) :=
  rfl

end Storage

/-- The same is found in both listings of a directory, in whatever order. -/
def Scan.FindAlike (ignored : IgnoreSet) (directory : String) (l l' : List Listed) : Prop :=
  (l'.filterMap (finding? ignored directory)).Perm (l.filterMap (finding? ignored directory))

namespace Memory

variable {faults : Faults} {cache : LayoutCache} {allowed : String → Prop} {s t : Memory}

/-- A memory that lists in another order answers all other calls as ever. -/
theorem listsApart_reordered (faults : Faults) (order : Path → List Listed → List Listed) :
    ListsApart faults ((storage.faulty faults).reordered order) := by
  intro c s hc
  cases c with
  | list path => exact absurd rfl hc
  | _ => rfl

/-- A memory that has grown finds the same in a directory, if its cache was there before or is not
in that directory. -/
theorem Grows.agree_list (h : Grows faults cache allowed s t) {p : Path}
    (hcache : s.contains cache.path = true ∨ ¬ p.location.Below cache.path.location)
    (ignored : IgnoreSet) (directory : String) :
    Agree (Scan.FindAlike ignored directory) (s.list p) (t.list p) := by
  rcases hcache with hthere | houtside
  · obtain ⟨written, hfiles, hwritten⟩ := h.files
    have hentries : t.entriesOf p.location = s.entriesOf p.location ++
        ((written.map Prod.fst).filterMap (entryName? p.location)).map (⟨·, false⟩) := by
      simp only [entriesOf, h.dirs_eq hthere, hfiles, List.map_append, List.filterMap_append,
        List.append_assoc]
    -- what has appeared are placeholders, and their names mean nothing
    have hnone : (((written.map Prod.fst).filterMap (entryName? p.location)).map
        ((⟨·, false⟩) : String → Listed)).filterMap (Scan.finding? ignored directory) = [] := by
      rw [List.filterMap_eq_nil_iff, List.forall_mem_map]
      intro name hname
      obtain ⟨l, hl, hname⟩ := List.mem_filterMap.1 hname
      obtain ⟨file, hfile, rfl⟩ := List.mem_map.1 hl
      obtain ⟨d, -, rfl, -⟩ := hwritten file hfile
      obtain ⟨hchild, -⟩ := entryName?_eq_some_iff.1 hname
      rw [cache.location_filePath] at hchild
      obtain rfl : LayoutCache.fileName d = name := by
        simpa [Location.child] using congrArg (fun l => l.names.getLast?) hchild
      simp [Scan.finding?, Scan.findingOfFile?, ofFileName?_placeholder]
    have hdirectory : t.isDirectory p.location = s.isDirectory p.location := by
      rw [isDirectory, isDirectory, h.dirs_eq hthere]
    unfold list
    rw [hdirectory]
    split
    · refine .ok ?_
      have hperm := ((stableSort_perm inNameOrder (t.entriesOf p.location)).filterMap
        (Scan.finding? ignored directory))
      rw [hentries, List.filterMap_append, hnone, List.append_nil, ← hentries] at hperm
      exact hperm.trans ((stableSort_perm inNameOrder _).filterMap _).symm
    · exact .error _ _
  · rw [h.list_eq houtside]
    cases s.list p with
    | ok l => exact .ok (List.Perm.refl _)
    | error f => exact .error f f

end Memory

/-! ### The nodes of what was found -/

namespace Scan

variable {findings found : List Finding}

/-- What a finding adds to the nodes of a directory, given the nodes inside of directories. -/
def Finding.nodes (inside : String → List Node) : Finding → List Node
  | .node n => [n]
  | .layout _ => []
  | .directory name path => nodesOfDirectory name (inside path)

/-- The nodes of what was found are those of one finding after the other. -/
theorem nodesOf_map (inside : String → List Node) (findings : List Finding) :
    nodesOf findings ((directoryPaths findings).map inside) =
      findings.flatMap (Finding.nodes inside) := by
  induction findings with
  | nil => rfl
  | cons finding rest ih =>
    rw [List.flatMap_cons, ← ih]
    cases finding <;> rfl

/-- Where the nodes inside a directory are rearranged, so are those that it adds. -/
theorem rearranged_nodesOfDirectory {ns ms : List Node} (name : String)
    (h : Node.Rearranged ns ms) :
    Node.Rearranged (nodesOfDirectory name ns) (nodesOfDirectory name ms) := by
  unfold nodesOfDirectory
  split
  · exact h
  · exact .cons rfl h (.refl [])

/-- Where the nodes inside directories are rearranged, so are those of what was found. -/
theorem rearranged_nodesOf {findings : List Finding} {inside : String → List Node}
    {scanned : List (List Node)}
    (h : List.Forall₂ (fun path ns => Node.Rearranged (inside path) ns) (directoryPaths findings)
      scanned) :
    Node.Rearranged (nodesOf findings ((directoryPaths findings).map inside))
      (nodesOf findings scanned) := by
  induction findings generalizing scanned with
  | nil => exact .refl []
  | cons finding rest ih =>
    cases finding with
    | node n => exact .cons rfl (.refl _) (ih h)
    | layout path => exact ih h
    | directory name path =>
      obtain ⟨ns, others, hns, hothers, rfl⟩ := List.forall₂_cons_left_iff.1 h
      exact (rearranged_nodesOfDirectory name hns).append (ih hothers)

/-- What was found in another order gives rearranged nodes, in order of precedence, where the nodes
inside directories are rearranged. -/
theorem rearranged_sortSiblings_nodesOf (hfound : found.Perm findings) {inside : String → List Node}
    {scanned : List (List Node)}
    (h : List.Forall₂ (fun path ns => Node.Rearranged (inside path) ns) (directoryPaths found)
      scanned) :
    Node.Rearranged (Node.sortSiblings (nodesOf findings ((directoryPaths findings).map inside)))
      (Node.sortSiblings (nodesOf found scanned)) := by
  have hperm : (nodesOf findings ((directoryPaths findings).map inside)).Perm
      (nodesOf found ((directoryPaths found).map inside)) := by
    rw [nodesOf_map, nodesOf_map]
    exact hfound.symm.flatMap_right _
  have hsorted := (Node.sortSiblings_perm _).trans hperm
  exact .trans (.perm hsorted) ((rearranged_nodesOf h).trans
    (.perm (Node.sortSiblings_perm _).symm))

/-- Nodes that are rearranged need a placeholder alike. -/
theorem needsPlaceholder_congr {ns ms : List Node} (h : Node.Rearranged ns ms) :
    needsPlaceholder ns = needsPlaceholder ms := by
  rw [needsPlaceholder, needsPlaceholder, h.isEmpty_eq, h.any_eq Node.isLayout_congr]

/-- What was found in another order has the same layout, if there is one at most. -/
theorem layoutPath?_congr (h : found.Perm findings) (hone : (layoutPaths findings).length ≤ 1) :
    layoutPath? found = layoutPath? findings := by
  have hperm : (layoutPaths found).Perm (layoutPaths findings) := h.filterMap _
  rw [layoutPath?_eq, layoutPath?_eq]
  generalize layoutPaths findings = layouts at hperm hone
  match layouts, hone with
  | [], _ => rw [List.perm_nil.1 hperm]
  | [path], _ => rw [List.perm_singleton.1 hperm]

/-! ### Scans that agree -/

section

variable (faults : Faults) (o : Options) (m : Memory)

/-- Rearranged nodes are wrapped alike. -/
theorem agree_wrapped {ns ms : List Node} (h : Node.Rearranged ns ms) (path : String)
    (layout? : Option String) :
    Agree Node.Rearranged (wrapped faults o m path layout? ns) (wrapped faults o m path layout? ms)
    := by
  have hlayout : ∀ file, Node.Rearranged [.layout file ns] [.layout file ms] := fun _ =>
    .cons rfl h (.refl [])
  unfold wrapped
  cases layout? with
  | some layout => exact .ok (hlayout _)
  | none =>
    simp only [needsPlaceholder_congr h]
    split
    · split
      · exact .ok (hlayout _)
      · exact .error _ _
    · exact .ok h

/-- Rearranged nodes want the same placeholder. -/
theorem wanted_congr {ns ms : List Node} (h : Node.Rearranged ns ms) (path : String)
    (layout? : Option String) : wanted o path layout? ns = wanted o path layout? ms := by
  rw [wanted, wanted, needsPlaceholder_congr h]

/-- A directory fails if a directory found in it does. -/
theorem exists_gathered_eq_error {scanned : String → Except Fault (List Node)} (path : String)
    {below : String} {f : Fault} (hbelow : below ∈ directoryPaths findings)
    (hf : scanned below = .error f) :
    ∃ g, gathered faults o m scanned path findings = .error g := by
  cases hgather : Job.gather ((directoryPaths findings).map scanned) with
  | error g => exact ⟨g, by rw [gathered, hgather]⟩
  | ok inside =>
    have hmem : scanned below ∈ inside.map Except.ok :=
      Job.gather_eq_ok_iff.1 hgather ▸ List.mem_map_of_mem hbelow
    simp [hf] at hmem

end

end Scan

/-! ### What a scan in another order ensures -/

namespace Memory

/-- No two live layouts are in one directory. -/
def LayoutsApart (m : Memory) (o : Options) : Prop :=
  ∀ ignored, IgnoreSet.ofTexts o.ignored = .ok ignored →
    ((m.live o ignored .layout).map Prod.fst).Nodup

instance (m : Memory) (o : Options) : Decidable (m.LayoutsApart o) :=
  match h : IgnoreSet.ofTexts o.ignored with
  | .ok ignored => decidable_of_iff ((m.live o ignored .layout).map Prod.fst).Nodup
      ⟨fun hnodup _ hignored => by rwa [← Except.ok.inj (h.symm.trans hignored)],
        fun hall => hall ignored h⟩
  | .error _ => .isTrue fun _ hignored => absurd (h.symm.trans hignored) nofun

/-- The layout cache is there already, or it is not in the routes directory. -/
def CacheReady (m : Memory) (o : Options) : Prop :=
  m.contains o.cache.path = true ∨ ¬ o.routesLocation.Below o.cache.path.location

instance (m : Memory) (o : Options) : Decidable (m.CacheReady o) :=
  inferInstanceAs (Decidable (_ ∨ _))

end Memory

namespace Scan

open Job Memory

variable {faults : Faults} {o : Options} {ignored : IgnoreSet} {m s : Memory}
  {allowed : String → Prop} {order : Path → List Listed → List Listed} {names : List String}

/-- A directory that lists at most one live layout finds at most one. -/
theorem length_layoutPaths_le_one (hm : m.WellFormed)
    (hlayouts : ((m.live o ignored .layout).map Prod.fst).Nodup)
    (hnames : ∀ name ∈ names, (IsName name ∧ name ≠ ".") ∧ name ≠ "..")
    (hopen : ∀ above, above <+: names → above ≠ [] →
      ignored.ignoresDirectory (pathBelow (startDirectory o.routes) above) = false)
    {listing : List Listed}
    (hlist : m.list (o.root.join (pathBelow (startDirectory o.routes) names)) = .ok listing) :
    (layoutPaths (listing.filterMap
      (finding? ignored (pathBelow (startDirectory o.routes) names)))).length ≤ 1 := by
  rw [layoutPaths_findings, List.length_map]
  set layouts := listing.filter fun e =>
    liveRole? ignored (pathBelow (startDirectory o.routes) names) e = some .layout
  have hlive : ∀ e ∈ layouts,
      (names, e.name) ∈ m.live o ignored .layout ∧ e.isDirectory = false := by
    intro e he
    obtain ⟨he, hrole⟩ := List.mem_filter.1 he
    obtain ⟨hfile, hkept, hrole⟩ := liveRole?_eq_some_iff.1 (of_decide_eq_true hrole)
    obtain ⟨hdotdot, hstored⟩ := (mem_list_iff hlist).1 he
    rw [hfile, if_neg Bool.false_ne_true,
      o.location_join_pathBelow fun name hname => (hnames name hname).1,
      Location.child_descend] at hstored
    refine ⟨mem_live_iff.2 ⟨hstored, Options.admits_iff.2 ⟨hrole, ?_, ?_, hopen⟩⟩, hfile⟩
    · rwa [pathBelow_append]
    · rw [List.forall_mem_append]
      exact ⟨fun name hname => (hnames name hname).2, by simpa using hdotdot⟩
  -- two of them would be two live layouts of one directory
  have hsame : ∀ e ∈ layouts, ∀ e' ∈ layouts, e = e' := by
    intro e he e' he'
    obtain ⟨hmem, hfile⟩ := hlive e he
    obtain ⟨hmem', hfile'⟩ := hlive e' he'
    have hname := congrArg Prod.snd (List.inj_on_of_nodup_map hlayouts hmem hmem' rfl)
    cases e
    cases e'
    simp_all
  have hnodup : layouts.Nodup := (hm.lawful_list hlist).nodup.filter _
  cases hcons : layouts with
  | nil => exact Nat.zero_le 1
  | cons e rest =>
    have hsub : layouts ⊆ [e] := fun e' he' =>
      List.mem_singleton.2 (hsame e' he' e (hcons ▸ List.mem_cons_self))
    exact hcons ▸ (hnodup.subperm hsub).length_le

/-- A directory is shown in another order, at any time. -/
private theorem exists_answer_list (hnames : ∀ name ∈ names, IsName name ∧ name ≠ ".")
    (hcache : m.CacheReady o) (horder : ∀ path listing, (order path listing).Perm listing)
    (hs : Grows faults o.cache allowed m s) :
    ∃ reply, ((storage.faulty faults).reordered order).answer
        (.list (o.root.join (pathBelow (startDirectory o.routes) names))) s = (reply, s) ∧
      Agree (FindAlike ignored (pathBelow (startDirectory o.routes) names))
        (shownListing faults o m (pathBelow (startDirectory o.routes) names)) reply := by
  have houtside : m.contains o.cache.path = true ∨
      ¬ (o.root.join (pathBelow (startDirectory o.routes) names)).location.Below
        o.cache.path.location := by
    rw [o.location_join_pathBelow hnames]
    exact hcache.imp_right fun houtside hbelow => houtside hbelow.of_descend
  have hagree := hs.agree_list houtside ignored (pathBelow (startDirectory o.routes) names)
  rw [Storage.answer_reordered_list, answer_list, shownListing]
  cases faults .list (o.root.join (pathBelow (startDirectory o.routes) names)) with
  | some f => exact ⟨_, rfl, .error f f⟩
  | none =>
    refine ⟨_, rfl, ?_⟩
    simp only
    generalize m.list _ = r at hagree ⊢
    generalize s.list _ = r' at hagree ⊢
    cases hagree with
    | ok h => exact .ok (((horder _ _).filterMap _).trans h)
    | error f g => exact .error f g

/-- The scan has returned what agrees with the depth-first scan of the memory that the build started
from, and the placeholders that it wants are there. -/
private def Agrees (faults : Faults) (o : Options) (ignored : IgnoreSet) (m : Memory) (depth : Nat)
    (path : String) (r : Except Fault (List Node)) (t : Memory) : Prop :=
  Agree Node.Rearranged (depthFirst faults o ignored m depth path) r ∧
    ∀ nodes, r = .ok nodes → ∀ d ∈ wantedBelow faults o ignored m depth path,
      t.contains (o.cache.filePath d) = true

/-- Once a directory is listed in another order, the scans of the directories in it come first. -/
private theorem ensures_found_reordered {st : Storage (StateM Memory)} (hst : ListsApart faults st)
    {depth : Nat} {path : String} {found findings : List Finding} (hfound : found.Perm findings)
    (hone : (layoutPaths findings).length ≤ 1) (hs : Grows faults o.cache allowed m s)
    (hchildren : ∀ below ∈ directoryPaths findings,
      Ensures st (Grows faults o.cache allowed) (directory (o.scanSetting ignored) depth below) s
        (Agrees faults o ignored m depth below))
    (hallowed : ∀ d ∈ wantedAfter o (depthFirst faults o ignored m depth)
      (wantedBelow faults o ignored m depth) path findings, allowed d) :
    Ensures st (Grows faults o.cache allowed)
      (.fork ((directoryPaths found).map (directory (o.scanSetting ignored) depth))
        fun scanned => wrap (o.scanSetting ignored) path (layoutPath? found)
          (Node.sortSiblings (nodesOf found scanned))) s fun r t =>
      Agree Node.Rearranged
          (gathered faults o m (depthFirst faults o ignored m depth) path findings) r ∧
        ∀ nodes, r = .ok nodes → ∀ d ∈ wantedAfter o (depthFirst faults o ignored m depth)
          (wantedBelow faults o ignored m depth) path findings,
          t.contains (o.cache.filePath d) = true := by
  have hpaths : (directoryPaths found).Perm (directoryPaths findings) := hfound.filterMap _
  refine .fork_map _ (Agrees faults o ignored m depth)
    (fun below hbelow => hchildren below (hpaths.mem_iff.1 hbelow))
    (fun t scanned ht hscanned => ?_) fun t before below after f _ hsplit _ hf => ?_
  · -- all directories have succeeded, so they do so depth first
    obtain ⟨hthere, hscanned⟩ := (List.forall₂_and_left _ _).1
      (hscanned.imp fun below ns h => (⟨h.2 ns rfl, h.1⟩ : (∀ d ∈ wantedBelow faults o ignored m
        depth below, t.contains (o.cache.filePath d) = true) ∧ _))
    obtain ⟨inside, hinside, hrearranged⟩ := Agree.exists_values hscanned
    have hgather : gather ((directoryPaths findings).map (depthFirst faults o ignored m depth)) =
        .ok ((directoryPaths findings).map inside) := by
      rw [gather_eq_ok_iff, List.map_map]
      exact List.map_congr_left fun below hbelow => hinside below (hpaths.mem_iff.2 hbelow)
    have hnodes := rearranged_sortSiblings_nodesOf hfound hrearranged
    have hwanted := wanted_congr o hnodes path (layoutPath? findings)
    rw [layoutPath?_congr hfound hone]
    simp only [wantedAfter, gathered, hgather, List.forall_mem_append] at hallowed ⊢
    refine (ensures_wrap (tells_of_grows hst) (hs.trans ht) (hwanted ▸ hallowed.2)).imp
      fun r u hu hwrapped => ?_
    rw [hwrapped.1]
    refine ⟨agree_wrapped faults o m hnodes path _, fun nodes hresult => ⟨fun d hd => ?_, ?_⟩⟩
    · obtain ⟨below, hbelow, hd⟩ := List.mem_flatMap.1 hd
      exact hu.contains (hthere below (hpaths.mem_iff.2 hbelow) d hd)
    · rw [hwanted]
      exact hwrapped.2 nodes (hwrapped.1.trans hresult)
  · -- a directory that fails in one order fails in the other
    have hbelow : below ∈ directoryPaths findings := hpaths.mem_iff.1 (by simp [hsplit])
    obtain ⟨g, hg⟩ := hf.1.exists_eq_error
    obtain ⟨g, hg⟩ := exists_gathered_eq_error faults o m path hbelow hg
    rw [hg]
    exact ⟨.error g f, fun _ hok => by cases hok⟩

/-- A scan of a directory in another order returns what agrees with the depth-first scan, and the
placeholders that it wants are there. -/
private theorem ensures_directory_reordered (hm : m.WellFormed)
    (hcache : m.CacheReady o) (horder : ∀ path listing, (order path listing).Perm listing)
    (hlayouts : ((m.live o ignored .layout).map Prod.fst).Nodup) {depth : Nat}
    (hnames : ∀ name ∈ names, (IsName name ∧ name ≠ ".") ∧ name ≠ "..")
    (hopen : ∀ above, above <+: names → above ≠ [] →
      ignored.ignoresDirectory (pathBelow (startDirectory o.routes) above) = false)
    (hs : Grows faults o.cache allowed m s)
    (hallowed : ∀ d ∈ wantedBelow faults o ignored m depth
      (pathBelow (startDirectory o.routes) names), allowed d) :
    Ensures ((storage.faulty faults).reordered order) (Grows faults o.cache allowed)
      (directory (o.scanSetting ignored) depth (pathBelow (startDirectory o.routes) names)) s
      (Agrees faults o ignored m depth (pathBelow (startDirectory o.routes) names)) := by
  induction depth generalizing names s with
  | zero => exact .done fun t _ => ⟨.error _ _, fun _ hok => by cases hok⟩
  | succ depth ih =>
    have hanswer : ∀ t, Grows faults o.cache allowed s t → ∃ reply,
        ((storage.faulty faults).reordered order).answer (.list ((o.scanSetting ignored).root.join
          (pathBelow (startDirectory o.routes) names))) t = (reply, t) ∧
        Agree (FindAlike ignored (pathBelow (startDirectory o.routes) names))
          (shownListing faults o m (pathBelow (startDirectory o.routes) names)) reply := fun t ht =>
      exists_answer_list (fun name hname => (hnames name hname).1) hcache horder (hs.trans ht)
    refine .call (fun t ht => ?_) fun t ht => ?_
    · obtain ⟨reply, hreply, -⟩ := hanswer t ht
      rw [hreply]
      exact .refl t
    obtain ⟨reply, hreply, hagree⟩ := hanswer t ht
    rw [hreply]
    unfold Agrees
    rw [depthFirst]
    rw [wantedBelow] at hallowed ⊢
    cases hshown : shownListing faults o m (pathBelow (startDirectory o.routes) names) with
    | error f =>
      rw [hshown] at hagree
      cases hagree with
      | error _ g => exact .done fun u _ => ⟨.error _ _, fun _ hok => by cases hok⟩
    | ok listing =>
      rw [hshown] at hagree hallowed
      have hlist := list_of_shownListing hshown
      cases hagree with
      | @ok _ listed hfound =>
        refine ensures_found_reordered (listsApart_reordered faults order) hfound
          (length_layoutPaths_le_one hm hlayouts hnames hopen hlist) (hs.trans ht)
          (fun below hbelow => ?_) hallowed
        obtain ⟨name, hname, he, hentered, rfl⟩ :=
          exists_of_mem_directoryPaths hm.lawful hlist hbelow
        refine ih ?_ ?_ (hs.trans ht) fun d hd => hallowed d ?_
        · rw [List.forall_mem_append]
          exact ⟨hnames, by simpa using ⟨hname, ((mem_list_iff hlist).1 he).1⟩⟩
        · intro above habove hne
          rcases List.prefix_concat_iff.1 habove with rfl | habove
          · exact hentered
          · exact hopen above habove hne
        · exact List.mem_append_left _ (List.mem_flatMap.2 ⟨_, hbelow, hd⟩)

end Scan

/-! ### Every order of listings -/

namespace Job

open Memory Scan

variable {o : Options} {m : Memory} {depth : Nat}

/-- A build in another order returns what agrees with the depth-first scan, and makes sure of the
same placeholders. -/
theorem ensures_buildTree_reordered (faults : Faults) (hm : m.WellFormed) (hcache : m.CacheReady o)
    (hlayouts : m.LayoutsApart o) {order : Path → List Listed → List Listed}
    (horder : ∀ path listing, (order path listing).Perm listing) :
    Ensures ((storage.faulty faults).reordered order)
      (Grows faults o.cache (· ∈ o.wanted faults m depth)) (buildTree o depth) m fun r t =>
        Agree Node.Rearranged (o.depthFirst faults m depth) r ∧ ∀ tree, r = .ok tree →
          ∀ d ∈ o.wanted faults m depth, t.contains (o.cache.filePath d) = true := by
  unfold buildTree Options.depthFirst Options.wanted
  cases hignored : IgnoreSet.ofTexts o.ignored with
  | error f => exact .done fun t _ => ⟨.error f f, fun _ hok => by cases hok⟩
  | ok ignored =>
    have hdirectory := @ensures_directory_reordered faults o ignored m m
      (· ∈ wantedBelow faults o ignored m depth (startDirectory o.routes)) order [] hm hcache horder
      (hlayouts ignored hignored) depth (by simp)
      (fun above habove hne => absurd (List.prefix_nil.1 habove) hne) (.refl m) fun _ hd => hd
    exact hdirectory

/-- **The order of listings does not matter for the nesting.** Where no directory has two live
layouts and the layout cache is there already or not in the routes directory, builds on storages
that list the same files in different orders agree: in every order of calls either both fail, or
their configurations are the same up to the order of siblings, if no directory of the tree holds two
layouts. Whatever the order, a build comes to a result. -/
theorem Run.nesting_kept (hm : m.Reachable) (hcache : m.CacheReady o) (hlayouts : m.LayoutsApart o)
    {order₁ order₂ : Path → List Listed → List Listed}
    (horder₁ : ∀ path listing, (order₁ path listing).Perm listing)
    (horder₂ : ∀ path listing, (order₂ path listing).Perm listing)
    {events₁ events₂ : List Event} {job₁ job₂ : Job (List Node)} {m₁ m₂ : Memory}
    (hrun₁ : Run (storage.reordered order₁) (buildTree o depth) m events₁ job₁ m₁)
    (hrun₂ : Run (storage.reordered order₂) (buildTree o depth) m events₂ job₂ m₂)
    {r₁ : Except Fault (List Node)} (hresult₁ : job₁.result? = some r₁)
    (hone : ∀ tree, r₁ = .ok tree → Node.All Node.OneLayout tree) :
    (∀ r₂, job₂.result? = some r₂ →
        Agree Entry.Rearranged (r₁.map convert) (r₂.map convert)) ∧
      ((∃ r₂, job₂.result? = some r₂) ∨
        ∃ next, StepsTo (storage.reordered order₂) (job₂, m₂) next) ∧
      Acc (fun b a => StepsTo (storage.reordered order₂) a b) (job₂, m₂) := by
  refine ⟨fun r₂ hresult₂ => ?_, result?_isSome_or_exists_step _ job₂ m₂,
    (wellFounded_stepsTo _).apply _⟩
  -- both agree with the depth-first scan
  have hagree : ∀ {order : Path → List Listed → List Listed} {events job m' r},
      (∀ path listing, (order path listing).Perm listing) →
      Run (storage.reordered order) (buildTree o depth) m events job m' → job.result? = some r →
      Agree Node.Rearranged (o.depthFirst (fun _ _ => none) m depth) r := by
    intro order events job m' r horder hrun hresult
    rw [← storage.faulty_none] at hrun
    obtain ⟨-, hjob⟩ :=
      (ensures_buildTree_reordered _ hm.wellFormed hcache hlayouts horder).run hrun
    exact (hjob.post_of_result? hresult).1
  refine ((hagree horder₁ hrun₁ hresult₁).both (hagree horder₂ hrun₂ hresult₂)).map
    fun tree tree' htree ⟨base, h₁, h₂⟩ => ?_
  rw [htree] at hresult₁
  obtain ⟨ignored, F, -, -, hF, -⟩ := hrun₁.exists_folder hresult₁
  have hcovered := F.covered_nodes ignored (o.cache.referenceFor (startDirectory o.routes))
    (startDirectory o.routes)
  rw [← hF] at hcovered
  exact Node.Rearranged.convert hcovered (hone tree htree) (h₁.symm.trans h₂)

end Job

/-! ### Examples -/

namespace Memory

/-- Two private directories with layouts, side by side in the routes directory. -/
def doors : Memory :=
  .ofFiles [(⟨"app/routes/_guests/layout.tsx"⟩, ""), (⟨"app/routes/_guests/join/page.tsx"⟩, ""),
    (⟨"app/routes/_members/layout.tsx"⟩, ""), (⟨"app/routes/_members/page.tsx"⟩, "")]

/-- What the guests see. -/
def guestsNode : Node :=
  .layout "./routes/_guests/layout.tsx" [.route "join" false
    [.layout ".react-router/layouts/_guests.join.layout.tsx"
      [.indexPage "./routes/_guests/join/page.tsx"]]]

/-- What the members see. -/
def membersNode : Node :=
  .layout "./routes/_members/layout.tsx" [.indexPage "./routes/_members/page.tsx"]

/-- The doors are built in the order in which they are listed. -/
theorem buildTree_doors :
    (((FileRoutes.buildTree {} 5).run storage.reversed).run doors).1 =
        .ok [membersNode, guestsNode] ∧
      (((FileRoutes.buildTree {} 5).run (storage.reordered fun _ listing => listing)).run doors).1 =
        .ok [guestsNode, membersNode] ∧
      doors.LayoutsApart {} := by
  decide +kernel

end Memory

namespace Job

open Memory

/-- Which of the doors is listed first does not matter. -/
theorem Run.nesting_kept_doors : ∃ events₁ events₂ job₁ job₂ m₁ m₂,
    Run storage.reversed (buildTree {} 5) doors events₁ job₁ m₁ ∧
      job₁.result? = some (.ok [membersNode, guestsNode]) ∧
      Run (storage.reordered fun _ listing => listing) (buildTree {} 5) doors events₂ job₂ m₂ ∧
      job₂.result? = some (.ok [guestsNode, membersNode]) ∧
      Agree Entry.Rearranged (.ok (convert [membersNode, guestsNode]))
        (.ok (convert [guestsNode, membersNode])) := by
  obtain ⟨events₁, job₁, hrun₁, hresult₁⟩ :=
    exists_run_sequential storage.reversed (buildTree {} 5) doors
  obtain ⟨events₂, job₂, hrun₂, hresult₂⟩ :=
    exists_run_sequential (storage.reordered fun _ listing => listing) (buildTree {} 5) doors
  obtain ⟨hok₁, hok₂, hlayouts⟩ := buildTree_doors
  rw [hok₁] at hresult₁
  rw [hok₂] at hresult₂
  obtain ⟨hagree, -⟩ := Run.nesting_kept (reachable_ofFiles _) (.inr (by decide)) hlayouts
    (fun _ listing => listing.reverse_perm) (fun _ listing => .refl listing) hrun₁ hrun₂ hresult₁
    fun tree htree => by
      obtain rfl := Except.ok.inj htree
      decide +kernel
  exact ⟨events₁, events₂, job₁, job₂, _, _, hrun₁, hresult₁, hrun₂, hresult₂, hagree _ hresult₂⟩

end Job

namespace Memory

/-- Two private directories with layouts, side by side in a directory that is not private. -/
def groups : Memory :=
  .ofFiles [(⟨"app/routes/layout.tsx"⟩, ""), (⟨"app/routes/shop/_a/layout.tsx"⟩, ""),
    (⟨"app/routes/shop/_a/page.tsx"⟩, ""), (⟨"app/routes/shop/_b/layout.tsx"⟩, ""),
    (⟨"app/routes/shop/_b/page.tsx"⟩, "")]

/-- The layout of one of them, around its page. -/
def groupNode (name : String) : Node :=
  .layout ("./routes/shop/" ++ name ++ "/layout.tsx")
    [.indexPage ("./routes/shop/" ++ name ++ "/page.tsx")]

/-- The route tree with one of them before the other. -/
def groupsTree (first second : String) : List Node :=
  [.layout "./routes/layout.tsx" [.route "shop" false [groupNode first, groupNode second]]]

/-- The groups are built in the order in which they are listed. -/
theorem buildTree_groups :
    (((FileRoutes.buildTree {} (groups.scanDepth {})).run storage).run groups).1 =
        .ok (groupsTree "_a" "_b") ∧
      (((FileRoutes.buildTree {} (groups.scanDepth {})).run storage.reversed).run groups).1 =
        .ok (groupsTree "_b" "_a") ∧
      groups.LayoutsApart {} := by
  decide +kernel

/-- The layout of the first group becomes that of the directory. -/
theorem convert_groupsTree (first second : String) : convert (groupsTree first second) =
    [.layout "./routes/layout.tsx"
      [.route "shop" ("./routes/shop/" ++ first ++ "/layout.tsx")
        [.index ("./routes/shop/" ++ first ++ "/page.tsx"),
          .layout ("./routes/shop/" ++ second ++ "/layout.tsx")
            [.index ("./routes/shop/" ++ second ++ "/page.tsx")]]]] := by
  simp [groupsTree, groupNode, Node.layout, Node.route, Node.indexPage, Node.isLayout,
    Partition.directory, Partition.split, Partition.add, convert, convertEach, convertNode, resolve,
    hoist, notFoundRoute?, Node.isRoute, Node.isIndexPage]

/-- A directory with a page, beside an empty one in which the cache is to be made. -/
def annex : Memory :=
  (ofFiles [(⟨"app/routes/shop/page.tsx"⟩, "")]).insertDirectory ⟨"app/routes/annex"⟩

/-- The options with this cache. -/
def annexOptions : Options :=
  { layoutCache := "routes/annex/layouts" }

/-- The route tree, with these nodes in the empty directory. -/
def annexTree (inside : List Node) : List Node :=
  [.layout "routes/annex/layouts/root.layout.tsx" [.route "annex" false inside,
    .route "shop" false [.layout "routes/annex/layouts/shop.layout.tsx"
      [.indexPage "./routes/shop/page.tsx"]]]]

/-- What the cache is to the scan: a directory with nothing in it that means anything, and for this
reason a placeholder around it. -/
def cacheNode : Node :=
  .layout "routes/annex/layouts/annex.layout.tsx" [.route "layouts" false []]

/-- Whether the annex is listed before the shop or after it decides what is in it. -/
theorem buildTree_annex :
    (((FileRoutes.buildTree annexOptions (annex.scanDepth annexOptions)).run storage).run annex).1 =
        .ok (annexTree []) ∧
      (((FileRoutes.buildTree annexOptions (annex.scanDepth annexOptions)).run
        storage.reversed).run annex).1 = .ok (annexTree [cacheNode]) ∧
      annex.LayoutsApart annexOptions := by
  decide +kernel

theorem convert_annexTree : convert (annexTree []) =
    [.layout "routes/annex/layouts/root.layout.tsx"
      [.route "shop" "routes/annex/layouts/shop.layout.tsx"
        [.index "./routes/shop/page.tsx"]]] := by
  simp [annexTree, Node.layout, Node.route, Node.indexPage, Node.isLayout, Partition.directory,
    Partition.split, Partition.add, convert, convertEach, convertNode, resolve, hoist,
    notFoundRoute?]

theorem convert_annexTree_cacheNode : convert (annexTree [cacheNode]) =
    [.layout "routes/annex/layouts/root.layout.tsx"
      [.route "annex" "routes/annex/layouts/annex.layout.tsx" [],
        .route "shop" "routes/annex/layouts/shop.layout.tsx"
          [.index "./routes/shop/page.tsx"]]] := by
  simp [annexTree, cacheNode, Node.layout, Node.route, Node.indexPage, Node.isLayout,
    Partition.directory, Partition.split, Partition.add, convert, convertEach, convertNode, resolve,
    hoist, notFoundRoute?]

/-- The order of listings matters if a directory holds two layouts without having any, or if the
layout cache appears in the routes directory: in reverse order the other group has its layout around
both, and there is one more entry beside that of the shop. -/
theorem nesting_lost :
    (groups.LayoutsApart {} ∧ ∃ es fs,
      ((FileRoutes.compile storage {} (groups.scanDepth {})).run groups).1 = .ok es ∧
      ((FileRoutes.compile storage.reversed {} (groups.scanDepth {})).run groups).1 = .ok fs ∧
      ¬ Entry.Rearranged es fs) ∧
    annex.LayoutsApart annexOptions ∧ ∃ es fs,
      ((FileRoutes.compile storage annexOptions (annex.scanDepth annexOptions)).run annex).1 =
        .ok es ∧
      ((FileRoutes.compile storage.reversed annexOptions (annex.scanDepth annexOptions)).run
        annex).1 = .ok fs ∧
      ¬ Entry.Rearranged es fs := by
  -- compiling converts the tree that is built
  have hcompile : ∀ {st : Storage (StateM Memory)} {o : Options} {depth : Nat} {m : Memory}
      {tree : List Node}, (((FileRoutes.buildTree o depth).run st).run m).1 = .ok tree →
      ((FileRoutes.compile st o depth).run m).1 = .ok (convert tree) := by
    intro st o depth m tree h
    exact congrArg (Except.map convert) h
  obtain ⟨hgroups, hgroups', hapart⟩ := buildTree_groups
  obtain ⟨hannex, hannex', hapart'⟩ := buildTree_annex
  refine ⟨⟨hapart, _, _, hcompile hgroups, hcompile hgroups', fun h => ?_⟩,
    hapart', _, _, hcompile hannex, hcompile hannex', fun h => ?_⟩
  · rw [convert_groupsTree, convert_groupsTree] at h
    exact absurd h.labels_perm (by decide +kernel)
  · rw [convert_annexTree, convert_annexTree_cacheNode] at h
    exact absurd h.labels_perm (by decide +kernel)

end Memory

end FileRoutes
