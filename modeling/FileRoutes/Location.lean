import FileRoutes.Path

/-!
# Locations

A **location** is what a path denotes in a tree of files: the names to follow from the root or
from the working directory. All spellings of a path with `.` components and repeated slashes lead
to one location, while `..` is a name like any other. The names of a location are the Unicode text
that stood on its path, so that turning one into text changes nothing.
-/

namespace FileRoutes

/-- Where a path leads: the names to follow, from the root if `absolute`. -/
structure Location where
  /-- The names are followed from the root. -/
  absolute : Bool
  /-- The names to follow, outermost first. -/
  names : List String
deriving DecidableEq, Repr, Inhabited

/-- The location that a path denotes. -/
def Path.location (p : Path) : Location :=
  ⟨p.isAbsolute, p.names.filter (· ≠ ".")⟩

/-- No name of a location is empty or a dot. -/
theorem Path.ne_of_mem_location_names {p : Path} {name : String} (h : name ∈ p.location.names) :
    name ≠ "" ∧ name ≠ "." := by
  simp only [location, List.mem_filter, decide_eq_true_eq] at h
  exact ⟨ne_empty_of_mem_namesOf h.1, h.2⟩

/-- Paths that are spelled alike lead to one location. -/
theorem Path.location_eq_of_spelledAlike {p q : Path} (h : p.SpelledAlike q) :
    p.location = q.location := by
  have key : ∀ r : Path, r.location.names = r.components.filter (· ≠ ".") := by
    intro r
    simp only [location, components]
    split <;> simp_all
  have hn : p.location.names = q.location.names := by rw [key p, key q, h.2]
  have ha : p.location.absolute = q.location.absolute := h.1
  cases hp : p.location
  cases hq : q.location
  simp_all

namespace Location

/-- The relative location without a name. -/
def isEmpty (l : Location) : Bool :=
  !l.absolute && l.names.isEmpty

/-- The shortest text of a location. -/
def text (l : Location) : String :=
  (if l.absolute then "/" else "") ++ "/".intercalate l.names

/-- The location that holds this one: none for the root and for the empty location. -/
def parent? (l : Location) : Option Location :=
  if l.names.isEmpty then none else some ⟨l.absolute, l.names.dropLast⟩

/-- The name of this location in its parent. A last name `..` is no name of an entry. -/
def name? (l : Location) : Option String :=
  match l.names.getLast? with
  | some ".." => none
  | last => last

/-- The location of the entry `name` of a directory. -/
def child (l : Location) (name : String) : Location :=
  ⟨l.absolute, l.names ++ [name]⟩

/-- The location itself and all that hold it, nearest first, without the empty location. -/
def withAncestors (l : Location) : List Location :=
  ((List.range (l.names.length + 1)).reverse.map fun n =>
    (⟨l.absolute, l.names.take n⟩ : Location)).filter (!·.isEmpty)

/-- An entry lies in its directory. -/
@[simp] theorem parent?_child (l : Location) (name : String) :
    (l.child name).parent? = some l := by
  simp [parent?, child]

/-- An entry carries its name, unless that is `..`. -/
theorem name?_child {name : String} (l : Location) (h : name ≠ "..") :
    (l.child name).name? = some name := by
  simp only [name?, child, List.getLast?_concat]
  split <;> simp_all

/-- The locations that hold `l` are those whose names begin its names. -/
theorem mem_withAncestors_iff {l m : Location} :
    m ∈ l.withAncestors ↔ m.isEmpty = false ∧ m.absolute = l.absolute ∧
      ∃ n ≤ l.names.length, m.names = l.names.take n := by
  simp only [withAncestors, List.mem_filter, List.mem_map, List.mem_reverse, List.mem_range,
    Bool.not_eq_true', Nat.lt_succ_iff]
  constructor
  · rintro ⟨⟨n, hn, rfl⟩, he⟩
    exact ⟨he, rfl, n, hn, rfl⟩
  · rintro ⟨he, ha, n, hn, hm⟩
    exact ⟨⟨n, hn, by cases m; simp_all⟩, he⟩

end Location

end FileRoutes
