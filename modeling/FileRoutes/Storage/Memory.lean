import FileRoutes.Job
import FileRoutes.StableSort

/-!
# A tree of files in memory

A **memory** holds directories and files under their locations, and counts the files written to
it. Directories and files are kept apart, and one location may stand for both. A directory comes
with all its ancestors, and so does a file that is put in; a file that is written needs its
directory to be there. All spellings of a path lead to one location.

Names are Unicode text, and a listing gives the last name of each entry as it is stored.
-/

namespace FileRoutes

/-- A tree of files in memory. -/
structure Memory where
  /-- The directories. -/
  dirs : List Location := []
  /-- The files with their contents, each location once. -/
  files : List (Location × String) := []
  /-- The number of files written. -/
  writes : Nat := 0
deriving Repr, DecidableEq, Inhabited

namespace Memory

/-- The location is a directory. -/
def isDirectory (m : Memory) (l : Location) : Bool :=
  m.dirs.contains l

/-- The location is a file. -/
def isFile (m : Memory) (l : Location) : Bool :=
  m.files.any fun file => file.1 = l

/-! ### Putting things in -/

/-- Adds one directory, unless it is there. -/
def addDirectory (m : Memory) (l : Location) : Memory :=
  if m.isDirectory l then m else { m with dirs := m.dirs ++ [l] }

/-- Adds a directory and its ancestors. -/
def insertDirectoryAt (m : Memory) (l : Location) : Memory :=
  l.withAncestors.foldl addDirectory m

/-- Gives the file at a location new contents, or appends it. -/
def setContents (l : Location) (contents : String) :
    List (Location × String) → List (Location × String)
  | [] => [(l, contents)]
  | file :: rest =>
    if file.1 = l then (l, contents) :: rest else file :: setContents l contents rest

/-- Puts a file in, or replaces its contents, with all its ancestors. -/
def insertFileAt (m : Memory) (l : Location) (contents : String) : Memory :=
  let m := match l.parent? with
    | some parent => m.insertDirectoryAt parent
    | none => m
  { m with files := setContents l contents m.files }

/-- Puts the file at `path` in, with all its ancestors. -/
def insertFile (m : Memory) (path : Path) (contents : String) : Memory :=
  m.insertFileAt path.location contents

/-- Puts the directory at `path` in, with all its ancestors. -/
def insertDirectory (m : Memory) (path : Path) : Memory :=
  m.insertDirectoryAt path.location

/-- The tree of the given files. -/
def ofFiles (files : List (Path × String)) : Memory :=
  files.foldl (fun m file => m.insertFile file.1 file.2) {}

/-! ### Looking -/

/-- The contents of the file at `path`. -/
def read? (m : Memory) (path : Path) : Option String :=
  m.files.lookup path.location

/-- The name under which a location is an entry of the directory `parent`. -/
def entryName? (parent l : Location) : Option String :=
  if l.parent? = some parent then l.name? else none

/-- The entries of a directory: directories in their order, then files. -/
def entriesOf (m : Memory) (parent : Location) : List Listed :=
  (m.dirs.filterMap (entryName? parent)).map (⟨·, true⟩) ++
    ((m.files.map Prod.fst).filterMap (entryName? parent)).map (⟨·, false⟩)

/-- The first entry may stand before the second. -/
def inNameOrder (a b : Listed) : Bool :=
  a.name ≤ b.name

/-- The entries of a directory by name, a directory before a file of the same name. -/
def list (m : Memory) (path : Path) : Except Fault (List Listed) :=
  if m.isDirectory path.location then .ok (stableSort inNameOrder (m.entriesOf path.location))
  else .error (.noDirectory path.location)

/-- The path leads to a file or directory. -/
def contains (m : Memory) (path : Path) : Bool :=
  m.isDirectory path.location || m.isFile path.location

/-! ### Writing -/

/-- A file may be written into the location: it is empty or a directory. -/
def takesFiles (m : Memory) (parent : Location) : Bool :=
  parent.isEmpty || m.isDirectory parent

/-- Writes a file into a directory that is there, or at the top. -/
def write (m : Memory) (path : Path) (contents : String) : Except Fault Memory :=
  match path.location.parent? with
  | some parent =>
    if m.takesFiles parent then
      .ok { m with files := setContents path.location contents m.files, writes := m.writes + 1 }
    else .error (.noParent path.location)
  | none => .error (.noParent path.location)

/-- The tree answers calls and changes with them. -/
def storage : Storage (StateM Memory)
  | .list path => fun m => (m.list path, m)
  | .probe path => fun m => (.ok (m.contains path), m)
  | .write path contents => fun m =>
    match m.write path contents with
    | .ok written => (.ok (), written)
    | .error f => (.error f, m)
  | .makeDirectory path => fun m => (.ok (), m.insertDirectory path)

/-- The name of this sort of storage. -/
def storageName : String := "memory"

/-- The greatest number of names that lead to a directory. -/
def depth (m : Memory) : Nat :=
  (m.dirs.map fun l => l.names.length).foldl max 0

/-! ### Small facts -/

/-- The location whose contents are set has them. -/
theorem lookup_setContents (l : Location) (contents : String) (files : List (Location × String)) :
    (setContents l contents files).lookup l = some contents := by
  induction files with
  | nil => simp [setContents]
  | cons file rest ih =>
    obtain ⟨other, old⟩ := file
    by_cases h : other = l
    · simp [setContents, h]
    · have hb : (l == other) = false := by simpa using Ne.symm h
      simp [setContents, h, List.lookup_cons, hb, ih]

/-- Every other location keeps its contents. -/
theorem lookup_setContents_of_ne {l k : Location} (h : k ≠ l) (contents : String)
    (files : List (Location × String)) :
    (setContents l contents files).lookup k = files.lookup k := by
  have hk : (k == l) = false := by simpa using h
  induction files with
  | nil => simp [setContents, h]
  | cons file rest ih =>
    obtain ⟨other, old⟩ := file
    by_cases hf : other = l
    · simp [setContents, hf, List.lookup_cons, hk]
    · cases hb : k == other <;> simp [setContents, hf, List.lookup_cons, hb, ih]

/-- A directory is there once it was added. -/
theorem isDirectory_addDirectory_iff {m : Memory} {l k : Location} :
    (m.addDirectory l).isDirectory k = true ↔ k = l ∨ m.isDirectory k = true := by
  unfold addDirectory isDirectory
  split
  · next h =>
    constructor
    · exact Or.inr
    · rintro (rfl | hk)
      · exact h
      · exact hk
  · simp [or_comm]

/-- The directories after one is inserted: the old ones, and the new one with its ancestors. -/
theorem isDirectory_insertDirectoryAt_iff {m : Memory} {l k : Location} :
    (m.insertDirectoryAt l).isDirectory k = true ↔
      k ∈ l.withAncestors ∨ m.isDirectory k = true := by
  unfold insertDirectoryAt
  induction l.withAncestors generalizing m with
  | nil => simp
  | cons a rest ih =>
    rw [List.foldl_cons, ih, isDirectory_addDirectory_iff, List.mem_cons]
    constructor
    · rintro (h | h | h)
      · exact Or.inl (Or.inr h)
      · exact Or.inl (Or.inl h)
      · exact Or.inr h
    · rintro ((h | h) | h)
      · exact Or.inr (Or.inl h)
      · exact Or.inl h
      · exact Or.inr (Or.inr h)

/-- Making a directory touches no file. -/
@[simp] theorem files_insertDirectoryAt (m : Memory) (l : Location) :
    (m.insertDirectoryAt l).files = m.files := by
  unfold insertDirectoryAt
  induction l.withAncestors generalizing m with
  | nil => rfl
  | cons a rest ih =>
    rw [List.foldl_cons, ih]
    unfold addDirectory
    split <;> rfl

/-- A file that was put in is read back from every spelling of its path. -/
theorem read?_insertFile {m : Memory} {path other : Path} {contents : String}
    (h : other.location = path.location) :
    (m.insertFile path contents).read? other = some contents := by
  simp [insertFile, insertFileAt, read?, h, lookup_setContents]

end Memory

end FileRoutes
