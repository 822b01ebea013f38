/-!
# Names with a meaning

Inside a route directory three files carry a meaning: the page, the layout and the not-found
page. Their names are a fixed stem with one of the source extensions. A name that starts with an
underscore is **private**: a private file is a helper without a meaning to its directory
(`ofFileName?_eq_none_of_isPrivate`), and a private directory groups routes without adding to their
address.
-/

namespace FileRoutes

/-! ### Source extensions -/

/-- The extensions of source files. -/
def sourceExtensions : List String :=
  ["tsx", "ts", "jsx", "js"]

/-- The text before and the text after the last dot of a name. -/
def splitLastDot? (name : String) : Option (String × String) :=
  let backwards := name.toList.reverse
  match backwards.dropWhile (· ≠ '.') with
  | [] => none
  | _ :: stem =>
    some (String.ofList stem.reverse, String.ofList (backwards.takeWhile (· ≠ '.')).reverse)

/-- A name is put together again from the two texts around its last dot. -/
theorem toList_of_splitLastDot? {name stem extension : String}
    (h : splitLastDot? name = some (stem, extension)) :
    name.toList = stem.toList ++ '.' :: extension.toList := by
  simp only [splitLastDot?] at h
  split at h
  · simp at h
  · next dot before hd =>
    simp only [Option.some.injEq, Prod.mk.injEq] at h
    obtain ⟨rfl, rfl⟩ := h
    have hdot : dot = '.' := by
      have := List.head?_dropWhile_not (· ≠ '.') name.toList.reverse
      rw [hd] at this
      simpa using this
    have hall := List.takeWhile_append_dropWhile (p := (· ≠ '.')) (l := name.toList.reverse)
    rw [hd, hdot] at hall
    have := congrArg List.reverse hall
    simpa using this.symm

/-- The stem and the extension of a source file name. -/
def sourceParts? (name : String) : Option (String × String) :=
  (splitLastDot? name).filter fun parts => sourceExtensions.contains parts.2

/-- A name without its source extension, if it has one. -/
def withoutExtension (name : String) : String :=
  match sourceParts? name with
  | some (stem, _) => stem
  | none => name

/-! ### Files with a meaning -/

/-- What a file means to its directory. -/
inductive Convention where
  /-- The page shown at the address of the directory. -/
  | page
  /-- The layout around everything else in the directory. -/
  | layout
  /-- The page for addresses that nothing else matches. -/
  | notFound
deriving DecidableEq, Repr

namespace Convention

/-- The stem of the file names that carry this meaning. -/
def stem : Convention → String
  | .page => "page"
  | .layout => "layout"
  | .notFound => "not-found"

/-- What a file of this name means: something only if a source extension follows one of the three
stems. -/
def ofFileName? (name : String) : Option Convention :=
  (sourceParts? name).bind fun parts =>
    [page, layout, notFound].find? fun convention => convention.stem = parts.1

/-- A convention is found under its own stem only. -/
theorem stem_of_ofFileName? {name : String} {c : Convention} (h : ofFileName? name = some c) :
    ∃ parts, sourceParts? name = some parts ∧ parts.1 = c.stem := by
  obtain ⟨parts, hp, hf⟩ := Option.bind_eq_some_iff.1 h
  exact ⟨parts, hp, (by simpa using List.find?_some hf : c.stem = parts.1).symm⟩

end Convention

/-! ### Private names -/

/-- A helper file, or a directory that groups routes without adding to their address. -/
def isPrivate (name : String) : Bool :=
  ['_'].isPrefixOf name.toList

/-- A private file has no meaning to its directory. -/
theorem Convention.ofFileName?_eq_none_of_isPrivate {name : String} (h : isPrivate name = true) :
    ofFileName? name = none := by
  cases hc : ofFileName? name with
  | none => rfl
  | some c =>
    obtain ⟨⟨stem, extension⟩, hp, hs⟩ := stem_of_ofFileName? hc
    have hn := toList_of_splitLastDot? (Option.filter_eq_some_iff.1 hp).1
    simp only at hs
    subst hs
    cases c <;> simp [isPrivate, hn, Convention.stem] at h

end FileRoutes
