import FileRoutes.Text.Trim

/-!
# Paths as they are written

A **path** is a text whose components stand between slashes. The text is kept as written, because
messages and listings show it; what it denotes is read off its components. A path that starts
with a slash is absolute and stands on its own; any other is relative to some directory.

Two paths are **spelled alike** when they have the same components: repeated and trailing slashes
do not count, nor does a `.` component, unless it opens a relative path.

All paths, and all names on them, are Unicode text. So turning a name into text gives the name
itself, with nothing replaced, and different names stay different. Trees with names that are no
Unicode text are outside the scope of this library.
-/

namespace FileRoutes

/-- A path, kept as the text it was written as. -/
structure Path where
  /-- The path as written. -/
  text : String
deriving DecidableEq, Repr, Inhabited

namespace Path

/-- The path starts with a slash. -/
def isAbsolute (p : Path) : Bool :=
  ['/'].isPrefixOf p.text.toList

/-- The path ends in a slash. -/
def endsInSlash (p : Path) : Bool :=
  ['/'].isSuffixOf p.text.toList

/-- The non-empty texts between the slashes of `text`, in order. -/
def namesOf (text : String) : List String :=
  ((text.toList.splitOn '/').filter (!·.isEmpty)).map String.ofList

/-- The names on the path in order, `.` and `..` among them. -/
def names (p : Path) : List String :=
  namesOf p.text

/-- The names that tell one path from another: a `.` counts only where it opens a relative
path. -/
def components (p : Path) : List String :=
  match p.isAbsolute, p.names with
  | false, "." :: rest => "." :: rest.filter (· ≠ ".")
  | _, names => names.filter (· ≠ ".")

/-- Both paths are absolute or both relative, with the same components. -/
def SpelledAlike (p q : Path) : Prop :=
  p.isAbsolute = q.isAbsolute ∧ p.components = q.components

instance (p q : Path) : Decidable (p.SpelledAlike q) :=
  inferInstanceAs (Decidable (_ ∧ _))

/-- The path of `other` seen from the directory `base`: an absolute `other` stands on its own, and
a slash is put between the two where none is. -/
def join (base : Path) (other : String) : Path :=
  if Path.isAbsolute ⟨other⟩ then ⟨other⟩
  else if base.text.isEmpty || base.endsInSlash then ⟨base.text ++ other⟩
  else ⟨base.text ++ "/" ++ other⟩

/-- The path with the given components, absolute or not. -/
def ofComponents (absolute : Bool) (components : List String) : Path :=
  ⟨(if absolute then "/" else "") ++ "/".intercalate components⟩

/-- The proper ancestors of a path, nearest first: the root closes those of an absolute path, and
a relative path has none beyond its first component. -/
def ancestors (p : Path) : List Path :=
  let above := (List.range p.components.length).reverse.map fun n =>
    ofComponents p.isAbsolute (p.components.take n)
  if p.isAbsolute then above else above.dropLast

/-! ### Names -/

/-- The empty text has no names. -/
@[simp] theorem namesOf_empty : namesOf "" = [] := by
  simp [namesOf]

/-- Around a slash the names follow each other. -/
theorem namesOf_append_slash (a b : String) : namesOf (a ++ "/" ++ b) = namesOf a ++ namesOf b := by
  have h : (a ++ "/" ++ b).toList = a.toList ++ '/' :: b.toList := by simp
  simp [namesOf, h, List.splitOn_append_cons_self]

/-- A text without a slash is one name, unless it is empty. -/
theorem namesOf_of_not_mem {text : String} (h : '/' ∉ text.toList) (hne : text ≠ "") :
    namesOf text = [text] := by
  have hl : text.toList ≠ [] := fun hn => hne (String.toList_inj.1 (by simpa using hn))
  simp [namesOf, List.splitOn_eq_singleton h, hl]

/-- No name is empty. -/
theorem ne_empty_of_mem_namesOf {text name : String} (h : name ∈ namesOf text) : name ≠ "" := by
  simp only [namesOf, List.mem_map, List.mem_filter] at h
  obtain ⟨chars, ⟨-, hne⟩, rfl⟩ := h
  rintro he
  rw [← String.toList_inj] at he
  simp_all

/-! ### Joining -/

/-- An absolute path replaces the base. -/
theorem join_of_isAbsolute {base : Path} {other : String} (h : Path.isAbsolute ⟨other⟩ = true) :
    base.join other = ⟨other⟩ := by
  simp [join, h]

/-- From the empty path every text is itself. -/
theorem join_empty_left (other : String) : Path.join ⟨""⟩ other = ⟨other⟩ := by
  simp [join]

/-- A path that ends in a slash is some text and a slash. -/
theorem exists_of_endsInSlash {p : Path} (h : p.endsInSlash = true) :
    ∃ text, p.text = text ++ "/" := by
  obtain ⟨chars, hc⟩ := List.isSuffixOf_iff_suffix.1 h
  exact ⟨String.ofList chars, String.toList_inj.1 (by simp [hc])⟩

/-- The names of a relative path follow those of its base. -/
theorem names_join {other : String} (base : Path) (h : Path.isAbsolute ⟨other⟩ = false) :
    (base.join other).names = base.names ++ namesOf other := by
  unfold join
  simp only [h, Bool.false_eq_true, if_false]
  split
  · next hc =>
    rcases Bool.or_eq_true_iff.1 hc with he | he
    · have hb : base.text = "" := by simpa using he
      simp [names, hb]
    · obtain ⟨text, ht⟩ := exists_of_endsInSlash he
      have ht' : namesOf (text ++ "/") = namesOf text := by
        simpa using namesOf_append_slash text ""
      simp [names, ht, ht', namesOf_append_slash]
  · simp [names, namesOf_append_slash]

/-- A relative path is absolute from its base if the base is. -/
theorem isAbsolute_join {base : Path} {other : String} (hb : base.text ≠ "")
    (h : Path.isAbsolute ⟨other⟩ = false) : (base.join other).isAbsolute = base.isAbsolute := by
  obtain ⟨text⟩ := base
  have hne : text.toList ≠ [] := fun hn => hb (String.toList_inj.1 (by simpa using hn))
  obtain ⟨c, rest, hc⟩ := List.exists_cons_of_ne_nil hne
  unfold join
  simp only [h, Bool.false_eq_true, if_false]
  split <;> simp [isAbsolute, hc, List.isPrefixOf]

/-! ### Spelling -/

/-- Every path is spelled like itself. -/
theorem SpelledAlike.refl (p : Path) : p.SpelledAlike p := ⟨rfl, rfl⟩

/-- Spelled alike is symmetric. -/
theorem SpelledAlike.symm {p q : Path} (h : p.SpelledAlike q) : q.SpelledAlike p :=
  ⟨h.1.symm, h.2.symm⟩

/-- Spelled alike is transitive. -/
theorem SpelledAlike.trans {p q r : Path} (h : p.SpelledAlike q) (k : q.SpelledAlike r) :
    p.SpelledAlike r :=
  ⟨h.1.trans k.1, h.2.trans k.2⟩

end Path

end FileRoutes
