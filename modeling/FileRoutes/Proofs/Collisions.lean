import FileRoutes.Node
import Mathlib.Data.List.Basic

/-!
# Directories that add one segment

Directories side by side claim one address if they add the same segment to it. Reading a segment off
a stem loses nothing, as the stem can be written down again (`Segment.stem_ofStem`), and neither
does writing the segment into an address, as long as it is known whether it is dynamic
(`Segment.eq_of_path_eq`). So names collide by their stems, whatever their extensions.

The exception are stems that would add nothing, which are **reserved**: the directory adds its plain
name then. It collides with a directory whose stem this plain name is, unless it is reserved once
more. That stem cannot be dynamic, as it ends in an extension and not in a bracket.

Main result: `Node.folder_collide_iff`.
-/

namespace FileRoutes

/-! ### Stems -/

/-- A stem that adds nothing to an address: that of pages, that of layouts, and the empty one. -/
def IsReservedStem (stem : String) : Prop :=
  stem = "page" ∨ stem = "layout" ∨ stem = ""

instance (stem : String) : Decidable (IsReservedStem stem) :=
  inferInstanceAs (Decidable (_ ∨ _))

/-- A name is its own stem, or it has a source extension after its stem. -/
theorem withoutExtension_eq_self_or (name : String) : withoutExtension name = name ∨
    ∃ extension ∈ sourceExtensions,
      name.toList = (withoutExtension name).toList ++ '.' :: extension.toList := by
  unfold withoutExtension
  cases hparts : sourceParts? name with
  | none => exact .inl rfl
  | some parts =>
    obtain ⟨hsplit, hextension⟩ := Option.filter_eq_some_iff.1 hparts
    exact .inr ⟨parts.2, by simpa using hextension, toList_of_splitLastDot? hsplit⟩

namespace Segment

variable {s t : Segment} {text : String}

/-- The stem that a segment is read off. -/
def stem : Segment → String
  | .index => "page"
  | .layout => "layout"
  | .catchAll name => "[..." ++ name ++ "]"
  | .param name => "[" ++ name ++ "]"
  | .static text => text

/-- A name has brackets around `inner` if it is an opening one, `inner`, and a closing one. -/
theorem bracketed?_eq_some_iff {inner : List Char} :
    bracketed? text = some inner ↔ text.toList = '[' :: inner ++ [']'] := by
  rw [bracketed?, Option.bind_eq_some_iff]
  simp only [List.isPrefixOf?_eq_some_iff_append_eq, List.isSuffixOf?_eq_some_iff_append_eq]
  constructor
  · rintro ⟨rest, hopen, rfl⟩
    exact hopen.symm
  · intro htext
    exact ⟨inner ++ [']'], htext.symm, rfl⟩

/-- **A stem can be told from its segment.** -/
theorem stem_ofStem (text : String) : (ofStem text).stem = text := by
  unfold ofStem
  split
  · next hpage => exact hpage.symm
  split
  · next hlayout => exact hlayout.symm
  cases hbrackets : bracketed? text with
  | none => rfl
  | some inner =>
    rw [← String.toList_inj, bracketed?_eq_some_iff.1 hbrackets]
    dsimp only
    cases hdots : ['.', '.', '.'].isPrefixOf? inner with
    | none => simp [stem]
    | some name => simp [stem, ← List.isPrefixOf?_eq_some_iff_append_eq.1 hdots]

/-- A segment that adds nothing is not dynamic. -/
theorem isDynamic_of_path_eq_empty (h : s.path = "") : s.isDynamic = false := by
  rw [← Bool.not_eq_true]
  exact fun hdynamic => path_ne_empty_of_isDynamic hdynamic h

/-- Reserved stems are those whose segment adds nothing. -/
theorem path_ofStem_eq_empty_iff : (ofStem text).path = "" ↔ IsReservedStem text := by
  constructor
  · intro hpath
    have hstem := stem_ofStem text
    -- what is dynamic adds something, and so does all that is static but the empty text
    cases hsegment : ofStem text with
    | index => exact .inl (by rw [← hstem, hsegment, stem])
    | layout => exact .inr (.inl (by rw [← hstem, hsegment, stem]))
    | static text' =>
      rw [hsegment] at hpath hstem
      exact .inr (.inr (hstem.symm.trans hpath))
    | catchAll name | param name =>
      rw [hsegment] at hpath
      exact absurd hpath (path_ne_empty_of_isDynamic rfl)
  · rintro (rfl | rfl | rfl) <;> rfl

/-- **A segment that adds something can be told from it**, once it is known whether it is
dynamic. -/
theorem eq_of_path_eq (hs : s.path ≠ "") (hpath : s.path = t.path)
    (hdynamic : s.isDynamic = t.isDynamic) : s = t := by
  have ht : t.path ≠ "" := hpath ▸ hs
  have hchars := congrArg String.toList hpath
  clear hpath
  cases s <;> cases t <;> simp_all [path, isDynamic, String.toList_inj]

/-- A text with a source extension is static, unless it is the stem of pages or of layouts. -/
theorem ofStem_of_extension {extension : String} {before : List Char}
    (hextension : extension ∈ sourceExtensions)
    (htext : text.toList = before ++ '.' :: extension.toList)
    (hreserved : ¬ IsReservedStem text) : ofStem text = .static text := by
  have hbrackets : bracketed? text = none := by
    rw [Option.eq_none_iff_forall_ne_some]
    intro inner hinner
    -- the last character would be that of the extension as well
    have hlast := congrArg List.getLast? (htext.symm.trans (bracketed?_eq_some_iff.1 hinner))
    simp only [sourceExtensions, List.mem_cons, List.not_mem_nil, or_false] at hextension
    rw [List.getLast?_concat] at hlast
    rcases hextension with rfl | rfl | rfl | rfl <;> simp at hlast
  unfold IsReservedStem at hreserved
  rw [ofStem, hbrackets]
  simp_all

end Segment

/-! ### What a directory adds -/

section

variable {name other : String}

/-- A directory with a reserved stem adds its plain name. -/
theorem folderSegment_of_reserved (h : IsReservedStem (withoutExtension name)) :
    folderSegment name = (name, false) := by
  have hpath : (Segment.ofName name).path = "" := Segment.path_ofStem_eq_empty_iff.2 h
  rw [folderSegment, if_pos hpath, Segment.isDynamic_of_path_eq_empty hpath]

/-- Any other directory adds the segment of its stem. -/
theorem folderSegment_of_not_reserved (h : ¬ IsReservedStem (withoutExtension name)) :
    folderSegment name = ((Segment.ofName name).path, (Segment.ofName name).isDynamic) := by
  have hpath : (Segment.ofName name).path ≠ "" := mt Segment.path_ofStem_eq_empty_iff.1 h
  rw [folderSegment, if_neg hpath]

/-- The directory called `name` adds its plain name, and this is the stem of the other one. -/
def AddsStemOf (name other : String) : Prop :=
  IsReservedStem (withoutExtension name) ∧ ¬ IsReservedStem name ∧ name = withoutExtension other

instance (name other : String) : Decidable (AddsStemOf name other) :=
  inferInstanceAs (Decidable (_ ∧ _))

/-- Directories without reserved stems add the same segment if they have the same stem. -/
theorem folderSegment_eq_iff_of_not_reserved (hname : ¬ IsReservedStem (withoutExtension name))
    (hother : ¬ IsReservedStem (withoutExtension other)) :
    folderSegment name = folderSegment other ↔ withoutExtension name = withoutExtension other := by
  rw [folderSegment_of_not_reserved hname, folderSegment_of_not_reserved hother, Prod.mk.injEq]
  constructor
  · rintro ⟨hpath, hdynamic⟩
    have hsame : Segment.ofStem (withoutExtension name) = Segment.ofStem (withoutExtension other) :=
      Segment.eq_of_path_eq (mt Segment.path_ofStem_eq_empty_iff.1 hname) hpath hdynamic
    rw [← Segment.stem_ofStem (withoutExtension name), hsame, Segment.stem_ofStem]
  · intro hstem
    simp [Segment.ofName, hstem]

/-- A directory with a reserved stem adds the segment of one without if its plain name is the stem
of that. -/
theorem folderSegment_eq_iff_of_reserved (hname : IsReservedStem (withoutExtension name))
    (hother : ¬ IsReservedStem (withoutExtension other)) :
    folderSegment name = folderSegment other ↔ AddsStemOf name other := by
  rw [folderSegment_of_reserved hname, folderSegment_of_not_reserved hother, Prod.mk.injEq]
  constructor
  · rintro ⟨hpath, hdynamic⟩
    have hstatic : Segment.ofStem (withoutExtension other) = .static name :=
      Segment.eq_of_path_eq (mt Segment.path_ofStem_eq_empty_iff.1 hother) hpath.symm hdynamic.symm
    have hstem : name = withoutExtension other := by
      rw [← Segment.stem_ofStem (withoutExtension other), hstatic, Segment.stem]
    exact ⟨hname, hstem ▸ hother, hstem⟩
  · rintro ⟨-, hplain, hstem⟩
    -- the name is not its own stem, so it has an extension
    obtain hself | ⟨extension, hextension, hchars⟩ := withoutExtension_eq_self_or name
    · exact absurd (hself ▸ hname) hplain
    · have hstatic : Segment.ofName other = .static name := by
        rw [Segment.ofName, ← hstem]
        exact Segment.ofStem_of_extension hextension hchars hplain
      simp [hstatic, Segment.path, Segment.isDynamic]

end

/-- **Directories collide by their stems.** Two directories with different names add the same
segment, and both a dynamic one or both a static one, if and only if they have the same stem and it
is not reserved, or one of them has a reserved stem and a plain name that is not reserved and is the
stem of the other. -/
theorem Node.folder_collide_iff {name other : String} (hne : name ≠ other)
    (inside inOther : List Node) :
    ((folder name inside).path = (folder other inOther).path ∧
        (folder name inside).isDynamic = (folder other inOther).isDynamic) ↔
      (withoutExtension name = withoutExtension other ∧
          ¬ IsReservedStem (withoutExtension name)) ∨
        AddsStemOf name other ∨ AddsStemOf other name := by
  have hsegments : ((folder name inside).path = (folder other inOther).path ∧
      (folder name inside).isDynamic = (folder other inOther).isDynamic) ↔
        folderSegment name = folderSegment other := by
    rw [Prod.ext_iff]
    exact Iff.rfl
  rw [hsegments]
  by_cases hname : IsReservedStem (withoutExtension name) <;>
    by_cases hother : IsReservedStem (withoutExtension other)
  · -- both add their plain names, which differ
    rw [folderSegment_of_reserved hname, folderSegment_of_reserved hother]
    simp only [Prod.mk.injEq, hne, false_and, false_iff, not_or, AddsStemOf]
    refine ⟨fun h => h.2 hname, fun h => h.2.1 (h.2.2 ▸ hother), fun h => h.2.1 (h.2.2 ▸ hname)⟩
  · rw [folderSegment_eq_iff_of_reserved hname hother]
    simp [hname, hother, AddsStemOf]
  · rw [eq_comm (a := folderSegment name), folderSegment_eq_iff_of_reserved hother hname]
    have hstems : withoutExtension name ≠ withoutExtension other := fun h => hname (h ▸ hother)
    simp [hname, hstems, AddsStemOf]
  · rw [folderSegment_eq_iff_of_not_reserved hname hother]
    simp [hname, hother, AddsStemOf]

/-- The directories `page.tsx` and `page.tsx.ts` claim one address, and so do `[id]` and `[id].js`;
`[id]` and `:id` do not, although both are written `:id`. -/
theorem Node.folder_collide_iff_pages :
    (folder "page.tsx" []).path = (folder "page.tsx.ts" []).path ∧
      (folder "[id]" []).path = (folder "[id].js" []).path ∧
      ¬ ((folder "[id]" []).path = (folder ":id" []).path ∧
        (folder "[id]" []).isDynamic = (folder ":id" []).isDynamic) := by
  have hpages := (Node.folder_collide_iff (by decide : "page.tsx" ≠ "page.tsx.ts") [] []).2
    (.inr (.inl (by decide)))
  have hparams := (Node.folder_collide_iff (by decide : "[id]" ≠ "[id].js") [] []).2
    (.inl (by decide))
  have hcolon := Node.folder_collide_iff (by decide : "[id]" ≠ ":id") [] []
  exact ⟨hpages.1, hparams.1, fun h => absurd (hcolon.1 h) (by decide)⟩

end FileRoutes
