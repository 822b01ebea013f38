import FileRoutes.Proofs.Correspondence
import FileRoutes.Proofs.Snapshot

/-!
# Scans build settled trees

The nodes that a scan finds in a directory are wrapped in a layout, unless there are none or a
layout stands among them already: it came there from a private directory. So whatever a scan has
seen, every directory of its tree is empty or has a layout (`Folder.any_isLayout_nodes`), and the
tree is settled if no directory was listed without a name (`Folder.settled_nodes`).

What holds of every page, not-found page and layout, and of every directory that is empty or has a
layout, holds of the whole tree: `Folder.all_nodes`.
-/

namespace FileRoutes

/-- A directory with a name adds a segment to the address. -/
theorem folderSegment_ne_empty {name : String} (h : name ≠ "") : (folderSegment name).1 ≠ "" := by
  unfold folderSegment
  by_cases hpath : (Segment.ofName name).path = ""
  · simp [hpath, h]
  · simp [hpath]

namespace Folder

/-- The predicate holds of the name of every entry seen. -/
def Names (Q : String → Prop) : Folder → Prop
  | nil => True
  | entry e rest => Q e.name ∧ rest.Names Q
  | directory name inside rest => Q name ∧ inside.Names Q ∧ rest.Names Q

/-- The names seen are those in the listings. -/
theorem names_iff {Q : String → Prop} {F : Folder} :
    F.Names Q ↔ ∀ x ∈ F.folders, ∀ e ∈ x.2, Q e.name := by
  have key : F.Names Q ↔
      (∀ e ∈ F.listing, Q e.name) ∧ ∀ x ∈ F.foldersBelow, ∀ e ∈ x.2, Q e.name := by
    induction F with
    | nil => simp [Names, listing, foldersBelow]
    | entry e rest ih =>
      simp only [Names, listing, foldersBelow, List.forall_mem_cons, ih, and_assoc]
    | directory name inside rest ihinside ihrest =>
      simp only [Names, listing, foldersBelow, List.forall_mem_cons, List.forall_mem_append,
        List.forall_mem_map, ihinside, ihrest]
      constructor
      · rintro ⟨hname, hinside, hlisting, hbelow⟩
        exact ⟨⟨hname, hlisting⟩, hinside, hbelow⟩
      · rintro ⟨⟨hname, hlisting⟩, hinside, hbelow⟩
        exact ⟨hname, hinside, hlisting, hbelow⟩
  rw [key, folders, List.forall_mem_cons]

variable {ignored : IgnoreSet} {reference : String → String} {path : String} {F : Folder}

/-- **The nodes of a directory are none, or there is a layout among them.** -/
theorem any_isLayout_nodes :
    F.nodes ignored reference path = [] ∨
      (F.nodes ignored reference path).any Node.isLayout = true := by
  unfold nodes close
  cases hwrapper : F.wrapper? ignored reference path
      (Node.sortSiblings (F.found ignored reference path)) with
  | some file => exact .inr (by simp [wrapped, Node.layout, Node.isLayout])
  | none =>
    -- nothing is put around the nodes, so they need nothing
    have hneeds : Scan.needsPlaceholder
        (Node.sortSiblings (F.found ignored reference path)) = false := by
      unfold wrapper? at hwrapper
      split at hwrapper
      · simp at hwrapper
      · simpa using hwrapper
    simpa [wrapped, Scan.needsPlaceholder, or_iff_not_imp_left] using hneeds

variable {P : Node → Prop} {Q : String → Prop}

/-- What holds of layouts and of all that was found holds of the nodes of the directory. -/
private theorem all_close (hlayout : ∀ file children, P (.layout file children))
    {found : List Node} (hfound : Node.All P found) :
    Node.All P (F.close ignored reference path found) := by
  have hsorted := (Node.all_perm_iff (Node.sortSiblings_perm found)).2 hfound
  unfold close
  cases F.wrapper? ignored reference path (Node.sortSiblings found) with
  | none => exact hsorted
  | some file => exact Node.all_cons.2 ⟨⟨hlayout file _, hsorted⟩, Node.all_nil⟩

/-- What holds of pages, not-found pages, layouts, and of directories that are empty or have a
layout, holds of all nodes of a tree that a scan builds. -/
theorem all_nodes (hpage : ∀ file, P (.indexPage file)) (hnotFound : ∀ file, P (.notFound file))
    (hlayout : ∀ file children, P (.layout file children))
    (hdirectory : ∀ name children, Q name →
      (children = [] ∨ children.any Node.isLayout = true) → P (.folder name children))
    (h : F.Names Q) : Node.All P (F.nodes ignored reference path) := by
  -- closing a directory adds a layout at most, so the induction is on what was found
  suffices hfound : Node.All P (F.found ignored reference path) from all_close hlayout hfound
  induction F generalizing path with
  | nil => simp [found]
  | entry e rest ih =>
    rw [found, Node.all_append]
    refine ⟨?_, ih h.2⟩
    cases hfinding : Scan.finding? ignored path e with
    | none => simp
    | some finding =>
      cases finding with
      | layout file => simp
      | directory name below => simp
      | node n =>
        have hn : ∃ file, n = .indexPage file ∨ n = .notFound file := by
          unfold Scan.finding? Scan.findingOfFile? at hfinding
          grind
        obtain ⟨file, rfl | rfl⟩ := hn
        · exact Node.all_cons.2 ⟨⟨hpage file, Node.all_nil⟩, Node.all_nil⟩
        · exact Node.all_cons.2 ⟨⟨hnotFound file, Node.all_nil⟩, Node.all_nil⟩
  | directory name inside rest ihinside ihrest =>
    obtain ⟨hname, hinside, hrest⟩ := h
    have hnodes : Node.All P (inside.nodes ignored reference (entryPath path name)) :=
      all_close hlayout (ihinside hinside)
    rw [found, Node.all_append]
    refine ⟨?_, ihrest hrest⟩
    unfold Scan.nodesOfDirectory
    split
    · exact hnodes
    · exact Node.all_cons.2 ⟨⟨hdirectory name _ hname any_isLayout_nodes, hnodes⟩, Node.all_nil⟩

/-- **The tree of a scan is settled** if every entry seen has a name. -/
theorem settled_nodes (h : F.Names (· ≠ "")) :
    Node.All Node.Settled (F.nodes ignored reference path) :=
  all_nodes (fun _ => ⟨nofun, nofun⟩) (fun _ => ⟨nofun, nofun⟩) (fun _ _ => ⟨nofun, nofun⟩)
    (fun _ _ hname hchildren => ⟨fun _ => folderSegment_ne_empty hname, fun _ => hchildren⟩) h

end Folder

end FileRoutes
