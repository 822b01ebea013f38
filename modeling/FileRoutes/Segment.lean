import FileRoutes.Convention

/-!
# Address segments

A directory adds a **segment** to the address of what it holds. The segment is read off the name
of the directory: a name in brackets is a parameter, one in brackets that opens with three dots
takes all the rest of the address, and any other name stands for itself.
-/

namespace FileRoutes

/-- What a file or directory name means as part of an address. -/
inductive Segment where
  /-- The page of its directory, which adds nothing. -/
  | index
  /-- The layout of its directory, which adds nothing. -/
  | layout
  /-- All the rest of the address, under a name. -/
  | catchAll (name : String)
  /-- One part of the address, whatever it is, under a name. -/
  | param (name : String)
  /-- Exactly this text. -/
  | static (text : String)
deriving DecidableEq, Repr

namespace Segment

/-- What stands between brackets, if `name` opens and closes with them. -/
def bracketed? (name : String) : Option (List Char) :=
  (['['].isPrefixOf? name.toList).bind ([']'].isSuffixOf? ·)

/-- The segment of a name that has no source extension. -/
def ofStem (stem : String) : Segment :=
  if stem = "page" then .index
  else if stem = "layout" then .layout
  else
    match bracketed? stem with
    | none => .static stem
    | some inner =>
      match ['.', '.', '.'].isPrefixOf? inner with
      | some name => .catchAll (String.ofList name)
      | none => .param (String.ofList inner)

/-- The segment that a file or directory name stands for. -/
def ofName (name : String) : Segment :=
  ofStem (withoutExtension name)

/-- How the segment is written in an address. -/
def path : Segment → String
  | .index | .layout => ""
  | .catchAll name => "*" ++ name
  | .param name => ":" ++ name
  | .static text => text

/-- The segment matches more than one text. -/
def isDynamic : Segment → Bool
  | .catchAll _ | .param _ => true
  | .index | .layout | .static _ => false

/-- A dynamic segment is never empty. -/
theorem path_ne_empty_of_isDynamic {s : Segment} (h : s.isDynamic = true) : s.path ≠ "" := by
  cases s <;> simp_all [isDynamic, path, ← String.toList_inj]

end Segment

/-- The segment that a directory adds to the address, and whether it is dynamic. A directory whose
name would add nothing, such as one called like a page, adds its plain name. -/
def folderSegment (name : String) : String × Bool :=
  let segment := Segment.ofName name
  (if segment.path = "" then name else segment.path, segment.isDynamic)

end FileRoutes
