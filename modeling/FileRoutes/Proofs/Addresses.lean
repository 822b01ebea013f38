import FileRoutes.Proofs.Layouts
import FileRoutes.Proofs.Live

/-!
# The addresses of live pages

The address of a page is told by the directories that lead to it: private ones add nothing to it,
and every other one adds its segment, however the tree and the configuration are built. Each live
page is the file of one index entry at its address, each live not-found page that of one entry at
what is left of its address, and no other file has an entry, live layouts and placeholders apart.

Main result: `Job.Run.addresses_kept`.
-/

namespace FileRoutes

/-- The configuration serves the live files of a memory, and nothing else. -/
structure ServesLive (o : Options) (ignored : IgnoreSet) (m : Memory) (entries : List Entry) :
    Prop where
  /-- The index entries show the live pages at their addresses. -/
  pages : (((Entry.placedAll entries).filter (·.entry.isIndex)).map
      fun p => (p.address, p.entry.file)).Perm
    ((m.live o ignored .page).map
      fun file => ("/".intercalate (addressSegments file.1), o.referenceOf file.1 file.2))
  /-- One entry shows each live not-found page, for every address that starts with its own. -/
  notFound : ∀ file ∈ m.live o ignored .notFound,
    ∃ p, Entry.showing entries (o.referenceOf file.1 file.2) = [p] ∧
      p.address = "/".intercalate (addressSegments file.1 ++ ["*"])
  /-- Every entry shows a live file or a placeholder. -/
  only : ∀ p ∈ Entry.placedAll entries,
    (∃ role, ∃ file ∈ m.live o ignored role, p.entry.file = o.referenceOf file.1 file.2 ∧
      (p.entry.isIndex = true ↔ role = .page)) ∨
    ∃ directory, p.entry.file = o.cache.reference directory ∧ p.entry.isIndex = false

namespace Folder

variable {o : Options} {ignored : IgnoreSet} {m : Memory} {F : Folder}

/-- Entries and the exhibits that they show have their addresses and files in common. -/
private theorem perm_of_rel_isShownBy {reference : String → String} {path : String}
    {exhibited : List Exhibit} {placed : List Placed}
    (h : Multiset.Rel (Exhibit.IsShownBy reference path) (exhibited : Multiset Exhibit)
      (placed : Multiset Placed)) :
    (exhibited.map fun x => (decide (x.role = .page), "/".intercalate x.segments,
        x.file reference path)).Perm
      (placed.map fun p => (p.entry.isIndex, p.address, p.entry.file)) := by
  rw [← Multiset.coe_eq_coe, ← Multiset.map_coe, ← Multiset.map_coe, ← Multiset.rel_eq,
    Multiset.rel_map]
  refine h.mono fun x _ p _ hx => ?_
  have hindex : decide (x.role = .page) = p.entry.isIndex := by
    rw [Bool.eq_iff_iff, hx.isIndex, decide_eq_true_iff]
  rw [hindex, hx.address, hx.file]

/-- The pages exhibited are the live pages found, at the addresses of their directories. -/
private theorem pages_exhibits (reference : String → String) :
    ((F.exhibits ignored reference (startDirectory o.routes)).filter fun x => x.role = .page).map
        (fun x => ("/".intercalate x.segments, x.file reference (startDirectory o.routes))) =
      (((F.exhibits ignored reference (startDirectory o.routes)).filterMap
        Exhibit.found?).filterMap (ofRole? .page)).map
          fun file => ("/".intercalate (addressSegments file.1), o.referenceOf file.1 file.2) := by
  rw [← List.filterMap_eq_filter, List.filterMap_filterMap, List.map_filterMap, List.map_filterMap]
  refine List.filterMap_congr fun x hx => ?_
  obtain ⟨folders, role, name?, around⟩ := x
  cases name? with
  | none =>
    -- placeholders are layouts and not pages
    obtain rfl : role = .layout := role_of_name?_eq_none hx rfl
    rfl
  | some name =>
    cases role <;> simp [Option.guard, Exhibit.found?, ofRole?, Exhibit.segments, Exhibit.file,
      Options.referenceOf]

/-- **The configuration of a folder that was seen in a memory serves its live files.** -/
theorem SeenIn.servesLive (h : F.SeenIn o m) (hm : m.WellFormed)
    (hfollowed : F.Followed ignored (startDirectory o.routes)) :
    ServesLive o ignored m (convert (F.nodes ignored
      (o.cache.referenceFor (startDirectory o.routes)) (startDirectory o.routes))) := by
  have hshown : Multiset.Rel (Exhibit.IsShownBy (o.cache.referenceFor (startDirectory o.routes))
      (startDirectory o.routes))
      (F.exhibits ignored (o.cache.referenceFor (startDirectory o.routes))
        (startDirectory o.routes) : Multiset Exhibit)
      (Entry.placedAll (convert (F.nodes ignored
        (o.cache.referenceFor (startDirectory o.routes)) (startDirectory o.routes))) :
          Multiset Placed) := h.lawful.rel_isShownBy
  constructor
  case pages =>
    have hindexed := (perm_of_rel_isShownBy hshown).filter Prod.fst
    have hpages := hindexed.map Prod.snd
    rw [List.filter_map, List.filter_map, List.map_map, List.map_map] at hpages
    refine (hpages.symm.trans (.of_eq (pages_exhibits _))).trans (List.Perm.map _ ?_)
    exact (found_exhibits_perm.filterMap _).trans (h.perm_live hm hfollowed (by simp))
  case notFound =>
    rintro ⟨folders, name⟩ hlive
    obtain ⟨p, x, hp, -, hfound, hx⟩ := h.lawful.exists_showing_eq o.cache
      (startDirectory o.routes) (h.mem_flatMap_liveIn hm hfollowed (by simp) hlive)
    obtain ⟨rfl, hrole, -⟩ := Exhibit.found?_eq_some_iff.1 hfound
    exact ⟨p, hp, by rw [hx.address, Exhibit.segments, if_pos hrole]⟩
  case only =>
    intro p hp
    obtain ⟨x, hx, hshows⟩ := Multiset.exists_mem_of_rel_of_mem (Multiset.rel_flip.2 hshown)
      (Multiset.mem_coe.2 hp)
    cases hname : x.name? with
    | none =>
      have hrole := role_of_name?_eq_none hx hname
      refine .inr ⟨routeDirectory (startDirectory o.routes)
        (pathBelow (startDirectory o.routes) x.folders), ?_, ?_⟩
      · rw [hshows.file, Exhibit.file, hname]
        rfl
      · simpa [hrole] using hshows.isIndex
    | some name =>
      have hfound := Exhibit.found?_eq_some_iff.2 ⟨rfl, rfl, hname⟩
      refine .inl ⟨x.role, _, h.mem_live hfollowed (found?_mem_liveIn hx hfound), ?_,
        hshows.isIndex⟩
      rw [hshows.file, Exhibit.file, hname]
      rfl

end Folder

/-- **Every page keeps its address**: in every run of a build that returns a tree on a memory, the
configuration serves the live files of the memory that the run started from, and nothing else. -/
theorem Job.Run.addresses_kept {o : Options} {depth : Nat} {m m' : Memory} {events : List Event}
    {job : Job (List Node)} {tree : List Node}
    (hrun : Job.Run Memory.storage (buildTree o depth) m events job m') (hm : m.Reachable)
    (hresult : job.result? = some (.ok tree)) :
    ∃ ignored, IgnoreSet.ofTexts o.ignored = .ok ignored ∧
      ServesLive o ignored m (convert tree) := by
  obtain ⟨ignored, F, hignored, hfollowed, hseen, rfl⟩ := hrun.exists_folder_seenIn hm hresult
  exact ⟨ignored, hignored, hseen.servesLive hm.wellFormed hfollowed⟩

/-- The users' pages keep their addresses. -/
theorem Job.Run.addresses_kept_users : ∃ events job m',
    Job.Run Memory.storage (buildTree {} 4) Memory.users events job m' ∧
      job.result? = some (.ok Memory.usersTree) ∧
      ∃ ignored, IgnoreSet.ofTexts [] = .ok ignored ∧
        ServesLive {} ignored Memory.users (convert Memory.usersTree) := by
  obtain ⟨events, job, m', hrun, hresult⟩ := Memory.exists_run_users
  exact ⟨events, job, m', hrun, hresult,
    Job.Run.addresses_kept hrun (Memory.reachable_ofFiles _) hresult⟩

end FileRoutes
