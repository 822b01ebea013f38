import FileRoutes.Proofs.Failure
import FileRoutes.Proofs.ListingOrder
import FileRoutes.Proofs.SiblingOrder

/-!
# The route tree does not depend on listings

Builds on storages that list the same files in different orders return trees that are the same up to
the order of siblings, if no directory has two live layouts. Siblings are sorted, though, and a sort
leaves only those in listing order that are of equal rank. So these are all that may change places:
one tree is **relisted** to the other (`Node.Relisted`), and the segments of directories come in the
same order in both (`Node.Relisted.routeSegments_eq`). Trees that are rearranged and sorted on all
levels are relisted, since a sibling that is moved to the front of a sorted list can only pass
others of its rank (`Node.Relisted.of_perm`).

The files that are there at the end are the same, too. If the builds succeed, these are the files
that were there and the placeholders that the tree refers to. If they fail, nothing was written at
all: either no placeholder is wanted, or the cache is blocked (`Memory.WellFormed.wanted_eq_nil`).

Main result: `Job.Run.tree_canonical`.
-/

namespace FileRoutes

/-! ### Siblings that change places -/

namespace Node

variable {a b n : Node} {ns ks ms : List Node}

/-- Neither sibling has to stand before the other: both are directories with the same segment, or
neither is a directory. -/
structure Interchangeable (a b : Node) : Prop where
  isRoute : a.isRoute = b.isRoute
  segment : a.isRoute = true → a.isDynamic = b.isDynamic ∧ a.path = b.path

/-- The trees are the same but for siblings that have changed places without need. Two directories
whose segments differ never do: they stand in the same order in both. -/
inductive Relisted : List Node → List Node → Prop
  | nil : Relisted [] []
  /-- What is inside of siblings is relisted. -/
  | cons {n k : Node} {ns ks : List Node} (hlabel : n.label = k.label)
    (hinside : Relisted n.children k.children) (h : Relisted ns ks) :
    Relisted (n :: ns) (k :: ks)
  /-- Neighbours change places. -/
  | swap {a b : Node} (h : a.Interchangeable b) (rest : List Node) :
    Relisted (a :: b :: rest) (b :: a :: rest)
  | trans {ns ks ms : List Node} (h : Relisted ns ks) (k : Relisted ks ms) : Relisted ns ms

/-- The segments of the directories among siblings, each after whether it is dynamic. -/
def routeSegments (siblings : List Node) : List (Bool × String) :=
  (siblings.filter isRoute).map fun n => (n.isDynamic, n.path)

theorem routeSegments_cons (n : Node) (siblings : List Node) :
    routeSegments (n :: siblings) =
      if n.isRoute then (n.isDynamic, n.path) :: routeSegments siblings else
        routeSegments siblings := by
  unfold routeSegments
  cases h : n.isRoute <;> simp [h]

theorem Interchangeable.of_mayPrecede (hab : mayPrecede a b = true)
    (hba : mayPrecede b a = true) : a.Interchangeable b := by
  have hroute : a.isRoute = b.isRoute := by
    rw [Bool.eq_iff_iff]
    exact ⟨fun ha => isRoute_of_mayPrecede hba ha, fun hb => isRoute_of_mayPrecede hab hb⟩
  refine ⟨hroute, fun ha => ?_⟩
  have hb : b.isRoute = true := hroute ▸ ha
  rw [mayPrecede_iff_of_isRoute ha hb] at hab
  rw [mayPrecede_iff_of_isRoute hb ha] at hba
  rcases hab with ⟨hstatic, hdynamic⟩ | ⟨hsame, hle⟩
  · simp [hstatic, hdynamic] at hba
  · rcases hba with ⟨hstatic, hdynamic⟩ | ⟨-, hge⟩
    · simp [hstatic, hdynamic] at hsame
    · exact ⟨hsame, String.le_antisymm hle hge⟩

/-- A node and its label take the same places among siblings. -/
theorem mayPrecede_label (a b : Node) : mayPrecede a.label b.label = mayPrecede a b := rfl

theorem map_label_eq (h : List.Forall₂ Matched ns ks) : ns.map label = ks.map label := by
  induction h with
  | nil => rfl
  | cons hmatched _ ih => rw [List.map_cons, List.map_cons, hmatched.label_eq, ih]

/-- Whether siblings are in order depends on their labels alone. -/
theorem inOrder_congr (h : ns.map label = ks.map label) : InOrder ns ↔ InOrder ks := by
  have key : ∀ ns : List Node,
      InOrder ns ↔ (ns.map label).Pairwise fun a b => mayPrecede a b = true := fun ns => by
    simp only [InOrder, List.pairwise_map, mayPrecede_label]
  rw [key ns, key ks, h]

namespace Relisted

theorem refl : (ns : List Node) → Relisted ns ns
  | [] => .nil
  | ⟨_, _, _, _, _, children⟩ :: rest => .cons rfl (refl children) (refl rest)

/-- A sibling may pass all that it may change places with. -/
theorem pass {before : List Node} (h : ∀ b ∈ before, n.Interchangeable b) (after : List Node) :
    Relisted (n :: (before ++ after)) (before ++ n :: after) := by
  induction before with
  | nil => exact refl _
  | cons b rest ih =>
    obtain ⟨hb, hrest⟩ := List.forall_mem_cons.1 h
    exact .trans (.swap hb _) (.cons rfl (refl _) (ih hrest))

/-- Two orders of the same siblings that are both sorted are relisted. -/
theorem of_perm (hns : InOrder ns) (hms : InOrder ms) (h : ns.Perm ms) : Relisted ns ms := by
  induction ns generalizing ms with
  | nil =>
    rw [List.nil_perm.1 h]
    exact .nil
  | cons n rest ih =>
    obtain ⟨before, after, rfl⟩ := List.append_of_mem (h.subset List.mem_cons_self)
    obtain ⟨hfirst, hrest⟩ := List.pairwise_cons.1 hns
    have hothers : rest.Perm (before ++ after) := (h.trans List.perm_middle).cons_inv
    have hsorted : InOrder (before ++ after) :=
      hms.sublist ((List.sublist_cons_self n after).append_left before)
    -- what stands before `n` in one order and behind it in the other is of its rank
    refine .trans (.cons rfl (refl _) (ih hrest hsorted hothers)) (pass (fun b hb => ?_) after)
    exact .of_mayPrecede (hfirst b (hothers.mem_iff.2 (List.mem_append_left _ hb)))
      ((List.pairwise_append.1 hms).2.2 b hb n List.mem_cons_self)

/-- Nodes that are matched one by one are relisted, where all that is inside is sorted. -/
theorem of_matched : (ns : List Node) → {ks : List Node} → List.Forall₂ Matched ns ks →
    All (InOrder ·.children) ns → All (InOrder ·.children) ks → Relisted ns ks
  | [], _, h, _, _ => by
    rw [List.forall₂_nil_left_iff.1 h]
    exact .nil
  | ⟨kind, path, file, isDynamic, isIndex, children⟩ :: rest, _, h, hns, hks => by
    obtain ⟨k, ks, hmatched, hrest, rfl⟩ := List.forall₂_cons_left_iff.1 h
    obtain ⟨⟨hordered, hbelow⟩, hnrest⟩ := all_cons.1 hns
    obtain ⟨⟨hordered', hbelow'⟩, hkrest⟩ := all_cons.1 hks
    obtain ⟨cs, hinside, hperm⟩ := hmatched.inside.exists_matched_perm
    have hchildren : Relisted children cs :=
      of_matched children hinside hbelow ((all_perm_iff hperm).2 hbelow')
    refine .cons hmatched.label_eq (hchildren.trans (.of_perm ?_ hordered' hperm))
      (of_matched rest hrest hnrest hkrest)
    exact (inOrder_congr (map_label_eq hinside)).1 hordered

/-- **Rearranged trees are relisted** if siblings are sorted on all levels of both. -/
theorem of_rearranged (hns : ∀ level ∈ levels ns, InOrder level)
    (hms : ∀ level ∈ levels ms, InOrder level) (h : Node.Rearranged ns ms) : Relisted ns ms := by
  obtain ⟨hordered, hbelow⟩ := forall_mem_levels_iff.1 hns
  obtain ⟨hordered', hbelow'⟩ := forall_mem_levels_iff.1 hms
  obtain ⟨ks, hmatched, hperm⟩ := h.exists_matched_perm
  have hks : InOrder ks := (inOrder_congr (map_label_eq hmatched)).1 hordered
  exact (of_matched ns hmatched hbelow ((all_perm_iff hperm).2 hbelow')).trans
    (of_perm hks hordered' hperm)

/-- The segments of the directories stand in the same order in both. -/
theorem routeSegments_eq (h : Relisted ns ks) : routeSegments ns = routeSegments ks := by
  induction h with
  | nil => rfl
  | cons hlabel _ _ _ ih =>
    obtain ⟨hkind, hpath, -, hdynamic, -⟩ := label_eq_iff.1 hlabel
    rw [routeSegments_cons, routeSegments_cons, ih, isRoute, isRoute, hkind, hpath, hdynamic]
  | @swap a b h rest =>
    simp only [routeSegments_cons, h.isRoute]
    split
    case isTrue hb =>
      obtain ⟨hdynamic, hpath⟩ := h.segment (h.isRoute.trans hb)
      rw [hdynamic, hpath]
    case isFalse => rfl
  | trans _ _ ih ih' => exact ih.trans ih'

/-- Relisted trees are the same up to the order of siblings. -/
theorem rearranged (h : Relisted ns ks) : Node.Rearranged ns ks := by
  induction h with
  | nil => exact .perm .nil
  | cons hlabel _ _ ihinside ih => exact .cons hlabel ihinside ih
  | swap _ rest => exact .perm (.swap _ _ rest)
  | trans _ _ ih ih' => exact .trans ih ih'

end Relisted

end Node

/-! ### What a build that fails has written -/

namespace Memory

variable {faults : Faults} {cache : LayoutCache} {allowed : String → Prop} {m s t : Memory}
  {o : Options} {f : Fault}

/-- Where no placeholder may be written or the cache is blocked, the files stay the same. -/
theorem Grows.files_eq (h : Grows faults cache allowed s t)
    (hnone : (∀ d, ¬ allowed d) ∨ s.Blocked cache) : t.files = s.files := by
  obtain ⟨written, hfiles, hwritten⟩ := h.files
  suffices hempty : written = [] by rw [hfiles, hempty, List.append_nil]
  refine List.eq_nil_iff_forall_not_mem.2 fun file hfile => ?_
  obtain ⟨d, hd, -, -, -, htakes⟩ := hwritten file hfile
  rcases hnone with hnone | hblocked
  · exact hnone d hd
  · obtain ⟨hthere, hrefuses⟩ := blocked_iff.1 hblocked
    have hsame : t.takesFiles cache.path.location = s.takesFiles cache.path.location := by
      simp only [Memory.takesFiles, Memory.isDirectory, h.dirs_eq hthere]
    simp [hsame, hrefuses] at htakes

/-- A build that fails although the cache is not blocked wants no placeholder. -/
theorem WellFormed.wanted_eq_nil (hm : m.WellFormed) {depth : Nat} (hdepth : m.scanDepth o ≤ depth)
    (hopen : ¬ m.Blocked o.cache) (hfails : o.depthFirst (fun _ _ => none) m depth = .error f) :
    o.wanted (fun _ _ => none) m depth = [] := by
  unfold Options.depthFirst at hfails
  unfold Options.wanted
  cases hignored : IgnoreSet.ofTexts o.ignored with
  | error g => rfl
  | ok ignored =>
    rw [hignored] at hfails
    simp only [scanDepth] at hdepth
    by_cases hstored : o.routesLocation ∈ m.dirs
    · -- all placeholders are given, so there is nothing to fail for
      have hdecided := @Scan.decidedBy_depthFirst o m ignored (fun _ _ => none) [] depth hm
        (fun _ => rfl) (by simp) (by simpa using hstored) (by omega)
      obtain ⟨d, -, hrefused⟩ := hdecided.error f hfails
      simp [placeholder_of_not_blocked hopen] at hrefused
    · obtain ⟨depth, rfl⟩ := Nat.exists_eq_add_one_of_ne_zero (show depth ≠ 0 by omega)
      have hmissing : Scan.shownListing (fun _ _ => none) o m (startDirectory o.routes) =
          .error (.noDirectory o.routesLocation) := by
        have hnone : ¬ m.isDirectory o.routesLocation = true := by rwa [isDirectory_iff]
        exact if_neg hnone
      simp only [Scan.wantedBelow, hmissing]

end Memory

/-! ### Every order of listings -/

namespace Job

open Memory

variable {o : Options} {m m' : Memory} {depth : Nat} {order : Path → List Listed → List Listed}
  {events : List Event} {job : Job (List Node)} {r : Except Fault (List Node)}

/-- Whatever the order of listings, the files at the end of a build that has come to its result are
those that were there, and if it has succeeded, each placeholder that was wanted and not there. -/
theorem Run.mem_files_iff_of_reordered (hm : m.WellFormed) (hcache : m.CacheReady o)
    (hlayouts : m.LayoutsApart o) (hdepth : m.scanDepth o ≤ depth)
    (horder : ∀ path listing, (order path listing).Perm listing)
    (hrun : Run (storage.reordered order) (buildTree o depth) m events job m')
    (hresult : job.result? = some r) :
    Agree Node.Rearranged (o.depthFirst (fun _ _ => none) m depth) r ∧
      ∀ file, file ∈ m'.files ↔ file ∈ m.files ∨
        (∃ tree, o.depthFirst (fun _ _ => none) m depth = .ok tree) ∧
          ∃ d ∈ o.wanted (fun _ _ => none) m depth, m.contains (o.cache.filePath d) = false ∧
            file = ((o.cache.filePath d).location, placeholderContents) := by
  rw [← storage.faulty_none] at hrun
  obtain ⟨hgrows, hjob⟩ := (ensures_buildTree_reordered _ hm hcache hlayouts horder).run hrun
  obtain ⟨hagree, hthere⟩ := hjob.post_of_result? hresult
  refine ⟨hagree, fun file => ?_⟩
  cases hfirst : o.depthFirst (fun _ _ => none) m depth with
  | ok tree =>
    rw [hfirst] at hagree
    cases hagree with
    | ok _ => simpa using hgrows.mem_files_iff (hthere _ rfl)
  | error f =>
    have hsame := hgrows.files_eq (or_iff_not_imp_right.2 fun hopen d hd => by
      simp [hm.wanted_eq_nil hdepth hopen hfirst] at hd)
    simp [hsame]

/-- **The order of listings does not matter for the tree.** Where no directory has two live layouts
and the layout cache is there already or not in the routes directory, builds on storages that list
the same files in different orders agree if they may go as deep as the memory: in every order of
calls either both fail, or their trees are the same up to the order of siblings, of which only those
of equal rank change places. Both leave the same files behind. Whatever the order, a build comes to
a result. -/
theorem Run.tree_canonical (hm : m.Reachable) (hcache : m.CacheReady o)
    (hlayouts : m.LayoutsApart o) (hdepth : m.scanDepth o ≤ depth)
    {order₁ order₂ : Path → List Listed → List Listed}
    (horder₁ : ∀ path listing, (order₁ path listing).Perm listing)
    (horder₂ : ∀ path listing, (order₂ path listing).Perm listing)
    {events₁ events₂ : List Event} {job₁ job₂ : Job (List Node)} {m₁ m₂ : Memory}
    (hrun₁ : Run (storage.reordered order₁) (buildTree o depth) m events₁ job₁ m₁)
    (hrun₂ : Run (storage.reordered order₂) (buildTree o depth) m events₂ job₂ m₂)
    {r₁ : Except Fault (List Node)} (hresult₁ : job₁.result? = some r₁) :
    (∀ r₂, job₂.result? = some r₂ →
        Agree Node.Relisted r₁ r₂ ∧ ∀ file, file ∈ m₁.files ↔ file ∈ m₂.files) ∧
      ((∃ r₂, job₂.result? = some r₂) ∨
        ∃ next, StepsTo (storage.reordered order₂) (job₂, m₂) next) ∧
      Acc (fun b a => StepsTo (storage.reordered order₂) a b) (job₂, m₂) := by
  refine ⟨fun r₂ hresult₂ => ?_, result?_isSome_or_exists_step _ job₂ m₂,
    (wellFounded_stepsTo _).apply _⟩
  obtain ⟨hagree₁, hfiles₁⟩ :=
    hrun₁.mem_files_iff_of_reordered hm.wellFormed hcache hlayouts hdepth horder₁ hresult₁
  obtain ⟨hagree₂, hfiles₂⟩ :=
    hrun₂.mem_files_iff_of_reordered hm.wellFormed hcache hlayouts hdepth horder₂ hresult₂
  refine ⟨?_, fun file => (hfiles₁ file).trans (hfiles₂ file).symm⟩
  cases hagree₁.both hagree₂ with
  | error f g => exact .error f g
  | ok h =>
    obtain ⟨base, h₁, h₂⟩ := h
    obtain ⟨ignored, F, -, -, rfl, -⟩ := hrun₁.exists_folder hresult₁
    obtain ⟨ignored', F', -, -, rfl, -⟩ := hrun₂.exists_folder hresult₂
    exact .ok (.of_rearranged Folder.inOrder_levels Folder.inOrder_levels (h₁.symm.trans h₂))

end Job

namespace Memory

/-- Both builds of the doors go to the depth of the memory. -/
theorem buildTree_doors_scanDepth :
    (((FileRoutes.buildTree {} 6).run storage.reversed).run doors).1 =
        .ok [membersNode, guestsNode] ∧
      (((FileRoutes.buildTree {} 6).run (storage.reordered fun _ listing => listing)).run doors).1 =
        .ok [guestsNode, membersNode] ∧
      doors.scanDepth {} = 6 := by
  decide +kernel

end Memory

namespace Job

open Memory

/-- The two doors change places, and the same files are there. -/
theorem Run.tree_canonical_doors : ∃ events₁ events₂ job₁ job₂ m₁ m₂,
    Run storage.reversed (buildTree {} 6) doors events₁ job₁ m₁ ∧
      job₁.result? = some (.ok [membersNode, guestsNode]) ∧
      Run (storage.reordered fun _ listing => listing) (buildTree {} 6) doors events₂ job₂ m₂ ∧
      job₂.result? = some (.ok [guestsNode, membersNode]) ∧
      Agree Node.Relisted (.ok [membersNode, guestsNode]) (.ok [guestsNode, membersNode]) ∧
      ∀ file, file ∈ m₁.files ↔ file ∈ m₂.files := by
  obtain ⟨events₁, job₁, hrun₁, hresult₁⟩ :=
    exists_run_sequential storage.reversed (buildTree {} 6) doors
  obtain ⟨events₂, job₂, hrun₂, hresult₂⟩ :=
    exists_run_sequential (storage.reordered fun _ listing => listing) (buildTree {} 6) doors
  obtain ⟨hok₁, hok₂, hdepth⟩ := buildTree_doors_scanDepth
  rw [hok₁] at hresult₁
  rw [hok₂] at hresult₂
  obtain ⟨hagree, -⟩ := Run.tree_canonical (reachable_ofFiles _) (.inr (by decide))
    buildTree_doors.2.2 hdepth.le (fun _ listing => listing.reverse_perm)
    (fun _ listing => .refl listing) hrun₁ hrun₂ hresult₁
  obtain ⟨hrelisted, hfiles⟩ := hagree _ hresult₂
  exact ⟨events₁, events₂, job₁, job₂, _, _, hrun₁, hresult₁, hrun₂, hresult₂, hrelisted, hfiles⟩

end Job

end FileRoutes
