import FileRoutes.Proofs.Barren
import FileRoutes.Proofs.Rearranged

/-!
# Layouts that stand side by side

A directory without a layout is given a placeholder unless there is a layout among its nodes, and
one that came from a private directory will do. So the layouts of two private directories are both
left where they are, and a directory has several layouts side by side. How many is told by counting:
found in a directory are the layouts of the private directories in it and no other, a directory that
shows anything has a layout, and one with a file around it has exactly one.

Main result: `Job.Run.one_layout_iff`, on every interleaved run of a build on any storage that lists
entries once and by their names; `Memory.two_layouts` is a tree with two layouts at its top.
-/

namespace FileRoutes

/-! ### Counting layouts -/

/-- A sum is more than one if one of its terms is, or if two of them are not zero. -/
theorem one_lt_sum_map_iff {α : Type} {f : α → Nat} {l : List α} (hl : l.Nodup) :
    1 < (l.map f).sum ↔
      (∃ a ∈ l, 1 < f a) ∨ ∃ a ∈ l, ∃ b ∈ l, a ≠ b ∧ 0 < f a ∧ 0 < f b := by
  induction l with
  | nil => simp
  | cons a rest ih =>
    obtain ⟨ha, hrest⟩ := List.nodup_cons.1 hl
    have hpos : 0 < (rest.map f).sum ↔ ∃ b ∈ rest, 0 < f b := by
      simp [List.sum_pos_iff_exists_pos_nat]
    rw [List.map_cons, List.sum_cons]
    constructor
    · intro h
      by_cases hmany : 1 < f a
      · exact .inl ⟨a, List.mem_cons_self, hmany⟩
      by_cases hfirst : 0 < f a
      · obtain ⟨b, hb, hsecond⟩ := hpos.1 (by omega)
        exact .inr ⟨a, List.mem_cons_self, b, List.mem_cons_of_mem _ hb,
          fun heq => ha (heq ▸ hb), hfirst, hsecond⟩
      · rcases (ih hrest).1 (by omega) with ⟨b, hb, hmore⟩ | ⟨b, hb, c, hc, htwo⟩
        · exact .inl ⟨b, List.mem_cons_of_mem _ hb, hmore⟩
        · exact .inr ⟨b, List.mem_cons_of_mem _ hb, c, List.mem_cons_of_mem _ hc, htwo⟩
    · rintro (⟨b, hb, hmore⟩ | ⟨b, hb, c, hc, hne, hfirst, hsecond⟩)
      · rcases List.mem_cons.1 hb with rfl | hb'
        · omega
        · have hsum := (ih hrest).2 (.inl ⟨b, hb', hmore⟩)
          omega
      · rcases List.mem_cons.1 hb with rfl | hb' <;> rcases List.mem_cons.1 hc with rfl | hc'
        · exact absurd rfl hne
        · have hsum := hpos.2 ⟨c, hc', hsecond⟩
          omega
        · have hsum := hpos.2 ⟨b, hb', hfirst⟩
          omega
        · have hsum := (ih hrest).2 (.inr ⟨b, hb', c, hc', hne, hfirst, hsecond⟩)
          omega

namespace Folder

variable {ignored : IgnoreSet} {reference : String → String} {path : String} {F G : Folder}

/-- The layouts found in a directory are those of the private directories in it. -/
theorem countP_isLayout_found :
    (F.found ignored reference path).countP Node.isLayout =
      ((F.directories.filter fun d => isPrivate d.1).map fun d =>
        (d.2.nodes ignored reference (entryPath path d.1)).countP Node.isLayout).sum := by
  induction F with
  | nil => simp [found, directories]
  | entry e rest ih =>
    have hpages : ((livePage? ignored path e).toList.map (pageNode path)).countP Node.isLayout =
        0 := by
      simp [List.countP_eq_zero, isLayout_pageNode]
    rw [found_entry, List.countP_append, hpages, Nat.zero_add, ih, directories]
  | directory name inside rest _ ihrest =>
    rw [found, List.countP_append, ihrest, directories, List.filter_cons]
    cases hname : isPrivate name with
    | true => simp [Scan.nodesOfDirectory, hname, nodes]
    | false => simp [Scan.nodesOfDirectory, hname, Node.folder, Node.route, Node.isLayout]

/-- A directory that has nodes has a layout among them. -/
theorem countP_isLayout_nodes_pos_iff :
    0 < (F.nodes ignored reference path).countP Node.isLayout ↔
      F.nodes ignored reference path ≠ [] := by
  constructor
  · rintro hpos hnone
    simp [hnone] at hpos
  · intro hne
    obtain ⟨n, hn, hlayout⟩ := List.any_eq_true.1 (any_isLayout_nodes.resolve_left hne)
    exact List.countP_pos_iff.2 ⟨n, hn, hlayout⟩

/-- A directory has more than one layout among its nodes if none of its own is around them and more
than one was found in it. -/
theorem one_lt_countP_nodes_iff_found :
    1 < (F.nodes ignored reference path).countP Node.isLayout ↔
      effectiveLayout? ignored path F.listing = none ∧
        1 < (F.found ignored reference path).countP Node.isLayout := by
  have hsorted := (Node.sortSiblings_perm (F.found ignored reference path)).countP_eq Node.isLayout
  cases houter : F.outer? ignored reference path with
  | none =>
    rw [nodes_of_outer?_eq_none houter, hsorted,
      and_iff_right (effectiveLayout?_of_outer?_eq_none houter)]
  | some file =>
    have hone : (F.nodes ignored reference path).countP Node.isLayout = 1 := by
      rw [nodes_of_outer?_eq_some houter]
      simp [Node.layout, Node.isLayout]
    rw [hone]
    refine iff_of_false (by omega) ?_
    rintro ⟨hnone, hmany⟩
    -- the file is a placeholder, which nodes with a layout do not need
    rw [outer?_of_effectiveLayout?_eq_none hnone] at houter
    simp only [Option.ite_none_right_eq_some, Scan.needsPlaceholder, Bool.and_eq_true,
      Bool.not_eq_true'] at houter
    have hno : (Node.sortSiblings (F.found ignored reference path)).countP Node.isLayout = 0 := by
      simpa [List.countP_eq_zero] using houter.1.2
    omega

/-- **Several layouts stand side by side** in a directory without one of its own, if they do in a
private directory in it, or if two of these have nodes. -/
theorem Lawful.one_lt_countP_nodes_iff (h : F.Lawful) :
    1 < (F.nodes ignored reference path).countP Node.isLayout ↔
      effectiveLayout? ignored path F.listing = none ∧
        ((∃ d ∈ F.directories, isPrivate d.1 = true ∧
            1 < (d.2.nodes ignored reference (entryPath path d.1)).countP Node.isLayout) ∨
          ∃ d ∈ F.directories, ∃ e ∈ F.directories, d.1 ≠ e.1 ∧
            (isPrivate d.1 = true ∧ d.2.nodes ignored reference (entryPath path d.1) ≠ []) ∧
            isPrivate e.1 = true ∧ e.2.nodes ignored reference (entryPath path e.1) ≠ []) := by
  have hlisting : F.listing.Nodup := (h ([], F.listing) List.mem_cons_self).nodup
  have hnames := hlisting.sublist F.directories_sublist_listing
  have hprivate : (F.directories.filter fun d => isPrivate d.1).Nodup :=
    (hnames.of_map _).filter _
  have hdistinct : ∀ d ∈ F.directories, ∀ e ∈ F.directories, d ≠ e ↔ d.1 ≠ e.1 :=
    fun d hd e he => not_congr ⟨fun heq => heq ▸ rfl, fun heq =>
      List.inj_on_of_nodup_map hnames hd he (by rw [heq])⟩
  rw [one_lt_countP_nodes_iff_found, countP_isLayout_found, one_lt_sum_map_iff hprivate]
  simp only [List.mem_filter, countP_isLayout_nodes_pos_iff]
  refine and_congr_right fun _ => or_congr (by simp only [and_assoc]) ?_
  constructor
  · rintro ⟨d, ⟨hd, hdprivate⟩, e, ⟨he, heprivate⟩, hne, hdnodes, henodes⟩
    exact ⟨d, hd, e, he, (hdistinct d hd e he).1 hne, ⟨hdprivate, hdnodes⟩, heprivate, henodes⟩
  · rintro ⟨d, hd, e, he, hne, ⟨hdprivate, hdnodes⟩, heprivate, henodes⟩
    exact ⟨d, ⟨hd, hdprivate⟩, e, ⟨he, heprivate⟩, (hdistinct d hd e he).2 hne, hdnodes, henodes⟩

/-! ### Directories that show something -/

/-- Something was found in a directory that has a page, in which one stands that is not private, or
in which a private one has nodes. -/
private theorem found_ne_nil_iff :
    F.found ignored reference path ≠ [] ↔
      F.listing.filterMap (livePage? ignored path) ≠ [] ∨
        (∃ d ∈ F.directories, isPrivate d.1 = false) ∨
        ∃ d ∈ F.directories, isPrivate d.1 = true ∧
          d.2.nodes ignored reference (entryPath path d.1) ≠ [] := by
  constructor
  · intro hne
    obtain ⟨n, hn⟩ := List.exists_mem_of_ne_nil _ hne
    rcases mem_found_iff.1 hn with ⟨page, hpage, -⟩ | ⟨d, hd, hn⟩
    · exact .inl (List.ne_nil_of_mem hpage)
    · cases hname : isPrivate d.1 with
      | false => exact .inr (.inl ⟨d, hd, hname⟩)
      | true =>
        rw [Scan.nodesOfDirectory, if_pos hname] at hn
        exact .inr (.inr ⟨d, hd, hname, List.ne_nil_of_mem hn⟩)
  · rintro (hpages | ⟨d, hd, hname⟩ | ⟨d, hd, hname, hne⟩)
    · obtain ⟨page, hpage⟩ := List.exists_mem_of_ne_nil _ hpages
      exact List.ne_nil_of_mem (mem_found_iff.2 (.inl ⟨page, hpage, rfl⟩))
    · have hn : Node.folder d.1 (d.2.nodes ignored reference (entryPath path d.1)) ∈
          F.found ignored reference path :=
        mem_found_iff.2 (.inr ⟨d, hd, by simp [Scan.nodesOfDirectory, hname]⟩)
      exact List.ne_nil_of_mem hn
    · obtain ⟨n, hinside⟩ := List.exists_mem_of_ne_nil _ hne
      have hn : n ∈ F.found ignored reference path :=
        mem_found_iff.2 (.inr ⟨d, hd, by rwa [Scan.nodesOfDirectory, if_pos hname]⟩)
      exact List.ne_nil_of_mem hn

/-- A directory has nodes if it has a live file, if one stands in it that is not private, or if a
private one in it has nodes. -/
theorem nodes_ne_nil_iff :
    F.nodes ignored reference path ≠ [] ↔
      liveFiles ignored path F.listing ≠ [] ∨
        (∃ d ∈ F.directories, isPrivate d.1 = false) ∨
        ∃ d ∈ F.directories, isPrivate d.1 = true ∧
          d.2.nodes ignored reference (entryPath path d.1) ≠ [] := by
  have hsorted : Node.sortSiblings (F.found ignored reference path) = [] ↔
      F.found ignored reference path = [] := by
    rw [← List.length_eq_zero_iff, (Node.sortSiblings_perm _).length_eq, List.length_eq_zero_iff]
  cases hlayout : FileRoutes.effectiveLayout? ignored path F.listing with
  | some name =>
    -- the layout is a live file, and the nodes are wrapped in it
    have hlive : (.layout, name) ∈ liveFiles ignored path F.listing :=
      mem_liveFiles_layout_iff.2 hlayout
    refine iff_of_true (fun hnone => ?_) (.inl (List.ne_nil_of_mem hlive))
    cases houter : F.outer? ignored reference path with
    | some file => simp [nodes_of_outer?_eq_some houter] at hnone
    | none => simp [effectiveLayout?_of_outer?_eq_none houter] at hlayout
  | none =>
    have hlive : liveFiles ignored path F.listing =
        F.listing.filterMap (livePage? ignored path) := by
      simp [liveFiles, hlayout]
    rw [hlive, ← found_ne_nil_iff, not_iff_not]
    cases houter : F.outer? ignored reference path with
    | none => rw [nodes_of_outer?_eq_none houter, hsorted]
    | some file =>
      rw [nodes_of_outer?_eq_some houter]
      rw [outer?_of_effectiveLayout?_eq_none hlayout] at houter
      simp only [Option.ite_none_right_eq_some, Scan.needsPlaceholder, Bool.and_eq_true,
        Bool.not_eq_true', List.isEmpty_eq_false_iff] at houter
      simpa [hsorted] using houter.1.1

/-! ### All directories have their nodes in the tree -/

/-- What was found in a directory is among its nodes, or inside the file around them. -/
theorem preorderAll_found_subset :
    Node.preorderAll (F.found ignored reference path) ⊆
      Node.preorderAll (F.nodes ignored reference path) := by
  have hsorted : Node.preorderAll (F.found ignored reference path) ⊆
      Node.preorderAll (Node.sortSiblings (F.found ignored reference path)) :=
    Node.preorderAll_subset (Node.sortSiblings_perm _).symm.subset
  cases houter : F.outer? ignored reference path with
  | none => rwa [nodes_of_outer?_eq_none houter]
  | some file =>
    rw [nodes_of_outer?_eq_some houter]
    exact List.Subset.trans hsorted
      (Node.preorderAll_children_subset (n := .layout file _) (List.mem_singleton_self _))

/-- The nodes of a directory are among those found in the one that it stands in, or inside its own
node there. -/
theorem preorderAll_nodes_subset {name : String} (hG : (name, G) ∈ F.directories) :
    Node.preorderAll (G.nodes ignored reference (entryPath path name)) ⊆
      Node.preorderAll (F.found ignored reference path) := by
  have hadded : Scan.nodesOfDirectory name (G.nodes ignored reference (entryPath path name)) ⊆
      F.found ignored reference path := fun n hn => mem_found_iff.2 (.inr ⟨_, hG, hn⟩)
  unfold Scan.nodesOfDirectory at hadded
  split at hadded
  · exact Node.preorderAll_subset hadded
  · exact Node.preorderAll_children_subset (n := .folder name _)
      (hadded (List.mem_singleton_self _))

/-- A directory that is not private has a node of its own, wherever it stands. -/
theorem Leads.folder_mem_preorderAll {names : List String} {name : String}
    (h : F.Leads (names ++ [name]) G) (hname : isPrivate name = false) :
    Node.folder name (G.nodes ignored reference (pathBelow path (names ++ [name]))) ∈
      Node.preorderAll (F.nodes ignored reference path) := by
  refine preorderAll_found_subset ?_
  induction names generalizing F path with
  | nil =>
    cases h with
    | into hG h =>
      cases h
      refine Node.mem_preorderAll_of_mem (mem_found_iff.2 (.inr ⟨_, hG, ?_⟩))
      simp [Scan.nodesOfDirectory, hname]
  | cons first names ih =>
    cases h with
    | into hK h => exact preorderAll_nodes_subset hK (preorderAll_found_subset (ih h))

/-- What leads to a directory leads to the one that it stands in. -/
theorem Leads.exists_of_concat {names : List String} {name : String}
    (h : F.Leads (names ++ [name]) G) : ∃ K, F.Leads names K ∧ (name, G) ∈ K.directories := by
  obtain ⟨K, hK, hG⟩ := h.split
  cases hG with
  | into hG h =>
    cases h
    exact ⟨K, hK, hG⟩

end Folder

/-! ### What was listed -/

namespace Options

variable (o : Options) (ignored : IgnoreSet) (events : List Event)

/-- The directory that `D` leads to shows something: it was listed with a live file, or one in it
was listed that is not private, or that is private and shows something itself. -/
inductive Shows : List String → Prop
  | file {D : List String} {role : Convention} {name : String}
    (h : o.ListsLive ignored events D role name) : Shows D
  | folder {D : List String} {name : String} (hname : IsName name)
    (hprivate : isPrivate name = false) (h : o.Lists events (D ++ [name])) : Shows D
  | group {D : List String} {name : String} (hname : IsName name)
    (hprivate : isPrivate name = true) (h : Shows (D ++ [name])) : Shows D

/-- Private directories stand side by side where `D` leads to: the directory there was listed
without a layout, and two private ones in it show something, or private ones stand side by side in
one of them. -/
inductive Splits : List String → Prop
  | here {D : List String} {first second : String} (hbare : o.LacksLayout ignored events D)
    (hne : first ≠ second)
    (hshow : ∀ name ∈ [first, second], IsName name ∧ isPrivate name = true ∧
      o.Shows ignored events (D ++ [name])) : Splits D
  | group {D : List String} {name : String} (hbare : o.LacksLayout ignored events D)
    (hname : IsName name) (hprivate : isPrivate name = true) (h : Splits (D ++ [name])) : Splits D

end Options

namespace Folder.Lawful

variable {o : Options} {ignored : IgnoreSet} {events : List Event} {F G : Folder}
  {reference : String → String} {D : List String}

section

variable (h : F.Lawful) (hlistings : F.ListedIn o events)

include h hlistings

omit h in
/-- A directory that shows something was seen, and has nodes. -/
private theorem exists_of_shows (reference : String → String) (hD : ∀ n ∈ D, IsName n)
    (hshows : o.Shows ignored events D) :
    ∃ G, F.Leads D G ∧
      G.nodes ignored reference (pathBelow (startDirectory o.routes) D) ≠ [] := by
  induction hshows with
  | @file D role name hlive =>
    obtain ⟨listing, hlisting, hfile⟩ := hlive
    obtain ⟨G, hG, rfl⟩ := exists_leads_of_mem_folders ((hlistings _ hD _).1 hlisting)
    exact ⟨G, hG, nodes_ne_nil_iff.2 (.inl (List.ne_nil_of_mem hfile))⟩
  | @folder D name hname hprivate hlists =>
    have hnames : ∀ n ∈ D ++ [name], IsName n := by
      simpa [or_imp, forall_and] using ⟨hD, hname⟩
    obtain ⟨H, hH⟩ := exists_leads_of_lists hlistings hnames hlists
    obtain ⟨G, hG, hdirectory⟩ := hH.exists_of_concat
    exact ⟨G, hG, nodes_ne_nil_iff.2 (.inr (.inl ⟨_, hdirectory, hprivate⟩))⟩
  | @group D name hname hprivate _ ih =>
    have hnames : ∀ n ∈ D ++ [name], IsName n := by
      simpa [or_imp, forall_and] using ⟨hD, hname⟩
    obtain ⟨H, hH, hne⟩ := ih hnames
    obtain ⟨G, hG, hdirectory⟩ := hH.exists_of_concat
    rw [pathBelow_concat] at hne
    exact ⟨G, hG, nodes_ne_nil_iff.2 (.inr (.inr ⟨_, hdirectory, hprivate, hne⟩))⟩

/-- **A directory shows something if and only if it has nodes.** -/
theorem shows_iff (hG : F.Leads D G) :
    o.Shows ignored events D ↔
      G.nodes ignored reference (pathBelow (startDirectory o.routes) D) ≠ [] := by
  constructor
  · intro hshows
    have hD := h.names.of_mem_folders hG.mem_folders
    obtain ⟨H, hH, hne⟩ := exists_of_shows hlistings reference hD hshows
    exact h.leads_unique hG hH ▸ hne
  · intro hne
    generalize hpath : pathBelow (startDirectory o.routes) D = path at hne
    induction path, G using directories_induction generalizing D with | h path G ih =>
    subst hpath
    have hinside : ∀ d ∈ G.directories, F.Leads (D ++ [d.1]) d.2 ∧ IsName d.1 := fun d hd =>
      have hd := hG.trans (.into hd (.here d.2))
      ⟨hd, h.names.of_mem_folders hd.mem_folders d.1 (by simp)⟩
    rcases nodes_ne_nil_iff.1 hne with hlive | ⟨d, hd, hprivate⟩ | ⟨d, hd, hprivate, hne⟩
    · obtain ⟨⟨role, name⟩, hfile⟩ := List.exists_mem_of_ne_nil _ hlive
      exact .file ⟨_, hlistings.listingOf?_eq h hG.mem_folders, hfile⟩
    · obtain ⟨hleads, hname⟩ := hinside d hd
      exact .folder hname hprivate (h.lists_of_leads hlistings hleads)
    · obtain ⟨hleads, hname⟩ := hinside d hd
      exact .group hname hprivate (ih d hd hleads (pathBelow_concat _ _ _) hne)

/-- Where private directories stand side by side, a directory was seen with several layouts. -/
private theorem exists_of_splits (reference : String → String) (hD : ∀ n ∈ D, IsName n)
    (hsplits : o.Splits ignored events D) :
    ∃ G, F.Leads D G ∧ 1 < (G.nodes ignored reference
      (pathBelow (startDirectory o.routes) D)).countP Node.isLayout := by
  have hseen : ∀ {D}, (∀ n ∈ D, IsName n) → o.LacksLayout ignored events D → ∃ G, F.Leads D G ∧
      effectiveLayout? ignored (pathBelow (startDirectory o.routes) D) G.listing = none := by
    rintro D hD ⟨listing, hlisting, hnone⟩
    obtain ⟨G, hG, rfl⟩ := exists_leads_of_mem_folders ((hlistings _ hD _).1 hlisting)
    exact ⟨G, hG, hnone⟩
  induction hsplits with
  | @here D first second hbare hne hshow =>
    obtain ⟨G, hG, hnone⟩ := hseen hD hbare
    have hinside : ∀ name ∈ [first, second], ∃ H, (name, H) ∈ G.directories ∧
        isPrivate name = true ∧ H.nodes ignored reference
          (entryPath (pathBelow (startDirectory o.routes) D) name) ≠ [] := by
      intro name hmem
      obtain ⟨hname, hprivate, hshows⟩ := hshow name hmem
      have hnames : ∀ n ∈ D ++ [name], IsName n := by
        simpa [or_imp, forall_and] using ⟨hD, hname⟩
      obtain ⟨H, hH, hnodes⟩ := exists_of_shows hlistings reference hnames hshows
      obtain ⟨K, hK, hdirectory⟩ := hH.exists_of_concat
      obtain rfl := h.leads_unique hG hK
      rw [pathBelow_concat] at hnodes
      exact ⟨H, hdirectory, hprivate, hnodes⟩
    obtain ⟨H, hH, hfirst⟩ := hinside first (by simp)
    obtain ⟨K, hK, hsecond⟩ := hinside second (by simp)
    exact ⟨G, hG, (h.of_leads hG).one_lt_countP_nodes_iff.2
      ⟨hnone, .inr ⟨_, hH, _, hK, hne, hfirst, hsecond⟩⟩⟩
  | @group D name hbare hname hprivate _ ih =>
    obtain ⟨G, hG, hnone⟩ := hseen hD hbare
    have hnames : ∀ n ∈ D ++ [name], IsName n := by
      simpa [or_imp, forall_and] using ⟨hD, hname⟩
    obtain ⟨H, hH, hmany⟩ := ih hnames
    obtain ⟨K, hK, hdirectory⟩ := hH.exists_of_concat
    obtain rfl := h.leads_unique hG hK
    rw [pathBelow_concat] at hmany
    exact ⟨G, hG, (h.of_leads hG).one_lt_countP_nodes_iff.2
      ⟨hnone, .inl ⟨_, hdirectory, hprivate, hmany⟩⟩⟩

/-- **A directory has several layouts if and only if private directories stand side by side
there.** -/
theorem splits_iff (hG : F.Leads D G) :
    o.Splits ignored events D ↔ 1 < (G.nodes ignored reference
      (pathBelow (startDirectory o.routes) D)).countP Node.isLayout := by
  constructor
  · intro hsplits
    have hD := h.names.of_mem_folders hG.mem_folders
    obtain ⟨H, hH, hmany⟩ := h.exists_of_splits hlistings reference hD hsplits
    exact h.leads_unique hG hH ▸ hmany
  · intro hmany
    generalize hpath : pathBelow (startDirectory o.routes) D = path at hmany
    induction path, G using directories_induction generalizing D with | h path G ih =>
    subst hpath
    obtain ⟨hnone, hinside⟩ := (h.of_leads hG).one_lt_countP_nodes_iff.1 hmany
    have hbare : o.LacksLayout ignored events D :=
      ⟨_, hlistings.listingOf?_eq h hG.mem_folders, hnone⟩
    have hbelow : ∀ d ∈ G.directories, F.Leads (D ++ [d.1]) d.2 ∧ IsName d.1 := fun d hd =>
      have hd := hG.trans (.into hd (.here d.2))
      ⟨hd, h.names.of_mem_folders hd.mem_folders d.1 (by simp)⟩
    rcases hinside with ⟨d, hd, hprivate, hmany⟩ |
      ⟨d, hd, e, he, hne, ⟨hdprivate, hdnodes⟩, heprivate, henodes⟩
    · obtain ⟨hleads, hname⟩ := hbelow d hd
      exact .group hbare hname hprivate (ih d hd hleads (pathBelow_concat _ _ _) hmany)
    · obtain ⟨hdleads, hdname⟩ := hbelow d hd
      obtain ⟨heleads, hename⟩ := hbelow e he
      rw [← pathBelow_concat] at hdnodes henodes
      refine .here hbare hne fun name hmem => ?_
      rcases List.mem_pair.1 hmem with rfl | rfl
      · exact ⟨hdname, hdprivate, (h.shows_iff hlistings hdleads).2 hdnodes⟩
      · exact ⟨hename, heprivate, (h.shows_iff hlistings heleads).2 henodes⟩

/-- No directory of the tree holds two layouts, nor does its top, unless private directories stand
side by side in the routes directory or in one below it that is not private. -/
theorem oneLayout_iff {tree : List Node}
    (htree : tree = F.nodes ignored reference (startDirectory o.routes)) :
    (tree.filter Node.isLayout).length ≤ 1 ∧ Node.All Node.OneLayout tree ↔
      ∀ D, (∀ n ∈ D, IsName n) →
        (D = [] ∨ ∃ above name, D = above ++ [name] ∧ isPrivate name = false) →
        ¬ o.Splits ignored events D := by
  subst htree
  constructor
  · rintro ⟨htop, hbelow⟩ D hD hplace hsplits
    obtain ⟨G, hG, hmany⟩ := h.exists_of_splits hlistings reference hD hsplits
    rw [List.countP_eq_length_filter] at hmany
    rcases hplace with rfl | ⟨above, name, rfl, hname⟩
    · cases hG
      exact absurd htop (not_le_of_gt hmany)
    · exact absurd (hbelow _ (hG.folder_mem_preorderAll hname) rfl) (not_le_of_gt hmany)
  · intro hnone
    refine ⟨not_lt.1 fun hmany => ?_, fun n hn hroute => not_lt.1 fun hmany => ?_⟩
    · rw [← List.countP_eq_length_filter] at hmany
      exact hnone [] (by simp) (.inl rfl) ((h.splits_iff hlistings (.here F)).2 hmany)
    · obtain ⟨above, name, G, hG, hname, rfl⟩ :=
        (all_origin_nodes F ignored reference (startDirectory o.routes) n hn).of_isRoute hroute
      rw [← List.countP_eq_length_filter] at hmany
      exact hnone _ (h.names.of_mem_folders hG.mem_folders) (.inr ⟨above, name, rfl, hname⟩)
        ((h.splits_iff hlistings hG).2 hmany)

end

end Folder.Lawful

/-- **A directory holds one layout at most, unless private directories stand side by side in it.**
In every run of a build that returns a tree, on a storage that lists every entry once and by its
name, the top of the tree and every directory in it hold one layout at most if and only if private
directories stand side by side nowhere in the routes directory and in directories below it that are
not private. -/
theorem Job.Run.one_layout_iff {σ : Type} {storage : Storage (StateM σ)} {o : Options}
    {depth : Nat} {s s' : σ} {events : List Event} {job : Job (List Node)} {tree : List Node}
    (hrun : Job.Run storage (buildTree o depth) s events job s')
    (hresult : job.result? = some (.ok tree))
    (hlawful : ∀ path listing, Event.listed path listing ∈ events → LawfulListing listing) :
    ∃ ignored, IgnoreSet.ofTexts o.ignored = .ok ignored ∧
      ((tree.filter Node.isLayout).length ≤ 1 ∧ Node.All Node.OneLayout tree ↔
        ∀ D, (∀ n ∈ D, IsName n) →
          (D = [] ∨ ∃ above name, D = above ++ [name] ∧ isPrivate name = false) →
          ¬ o.Splits ignored events D) := by
  obtain ⟨ignored, F, hignored, hF, htree, hlistings⟩ := hrun.exists_lawful_folder hresult hlawful
  exact ⟨ignored, hignored, hF.oneLayout_iff hlistings htree⟩

/-! ### An example -/

namespace Memory

/-- Two private directories with a page each. -/
def pair : Memory :=
  .ofFiles [(⟨"app/routes/_a/page.tsx"⟩, ""), (⟨"app/routes/_b/page.tsx"⟩, "")]

/-- The route tree of these files. -/
def pairTree : List Node :=
  [.layout ".react-router/layouts/_a.layout.tsx" [.indexPage "./routes/_a/page.tsx"],
    .layout ".react-router/layouts/_b.layout.tsx" [.indexPage "./routes/_b/page.tsx"]]

theorem buildTree_pair : (buildTree pair {}).1 = .ok pairTree := by
  decide +kernel

/-- The top of the tree of these files holds two layouts. -/
theorem two_layouts : ∃ tree, (buildTree pair {}).1 = .ok tree ∧
    ¬ (tree.filter Node.isLayout).length ≤ 1 :=
  ⟨pairTree, buildTree_pair, by decide⟩

end Memory

/-- The two private directories stand side by side in the routes directory. -/
theorem Job.Run.one_layout_iff_pair : ∃ events job m',
    Job.Run Memory.storage (buildTree {} (Memory.pair.scanDepth {})) Memory.pair events job m' ∧
      job.result? = some (.ok Memory.pairTree) ∧
      ∃ ignored, IgnoreSet.ofTexts [] = .ok ignored ∧
        ∃ D, (∀ n ∈ D, IsName n) ∧
          (D = [] ∨ ∃ above name, D = above ++ [name] ∧ isPrivate name = false) ∧
          Options.Splits {} ignored events D := by
  obtain ⟨events, job, hrun, hresult⟩ := Job.exists_run_sequential Memory.storage
    (buildTree {} (Memory.pair.scanDepth {})) Memory.pair
  have hbuilt := hresult.trans (congrArg some Memory.buildTree_pair)
  obtain ⟨ignored, hignored, hiff⟩ := Job.Run.one_layout_iff hrun hbuilt fun _ _ hlisted =>
    hrun.lawful_listed (Memory.reachable_ofFiles _) hlisted
  have htwo : ¬ (Memory.pairTree.filter Node.isLayout).length ≤ 1 := by decide
  have hsome := mt hiff.2 fun hone => htwo hone.1
  push Not at hsome
  exact ⟨events, job, _, hrun, hbuilt, ignored, hignored, hsome⟩

end FileRoutes
