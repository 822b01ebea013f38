import FileRoutes.Entry.Basic
import FileRoutes.Json.Printer
import FileRoutes.Json.Reader

/-!
# The configuration as JSON

An entry is written as an object with its path, its file, its index flag and its children, in this
order; an absent path, a flag that is not set and an empty list of children are left out, and
reading puts them back. When an entry is read, other members are passed over, the path may also be
null, and in place of the object an array may give the four fields by position, of which the last
ones may be missing.
-/

namespace FileRoutes.Entry

/-! ### Writing -/

mutual

/-- An entry as a JSON value. -/
def toJson : Entry → Json
  | ⟨path, file, isIndex, children⟩ =>
    .object <|
      (match path with
        | some path => [("path", .string path)]
        | none => []) ++
      [("file", .string file)] ++
      (if isIndex then [("index", .bool true)] else []) ++
      (match children with
        | [] => []
        | child :: rest => [("children", .array (child.toJson :: toJsonEach rest))])

/-- Entries as JSON values. -/
def toJsonEach : List Entry → List Json
  | [] => []
  | e :: rest => e.toJson :: toJsonEach rest

end

/-- A configuration as a JSON value. -/
def toJsonAll (entries : List Entry) : Json :=
  .array (toJsonEach entries)

/-- The configuration on one line. -/
def compactText (entries : List Entry) : String :=
  (toJsonAll entries).compact

/-- The configuration on indented lines. -/
def prettyText (entries : List Entry) : String :=
  (toJsonAll entries).pretty

/-! ### Reading -/

/-- An entry while its members are read: a field is none once its value turned out to be of the
wrong sort, or as long as a required value is missing. -/
structure Draft where
  path : Option (Option String) := some none
  file : Option String := none
  isIndex : Option Bool := some false
  children : Option (List Entry) := some []

/-- The entry, if no field is wrong or missing. -/
def Draft.finish? (d : Draft) : Option Entry := do
  return ⟨← d.path, ← d.file, ← d.isIndex, ← d.children⟩

/-- A path field: a string, or null for no path. -/
def pathOfJson? : Json → Option (Option String)
  | .null => some none
  | .string path => some (some path)
  | _ => none

mutual

/-- The entry that a JSON value stands for. -/
def ofJson? : Json → Option Entry
  | .object members => (ofMembers {} members).finish?
  | .array items => (ofFields items).finish?
  | _ => none

/-- Takes the members of an object into a draft; where two have one name, the last one counts. -/
def ofMembers (d : Draft) : List (String × Json) → Draft
  | [] => d
  | (name, value) :: rest =>
    let d := match name with
      | "path" => { d with path := pathOfJson? value }
      | "file" => { d with file := value.text? }
      | "index" => { d with isIndex := value.bool? }
      | "children" => { d with children := listOfJson? value }
      | _ => d
    ofMembers d rest

/-- The draft of an entry whose fields are given by position. -/
def ofFields : List Json → Draft
  | [path, file] => { path := pathOfJson? path, file := file.text? }
  | [path, file, index] =>
    { path := pathOfJson? path, file := file.text?, isIndex := index.bool? }
  | [path, file, index, children] =>
    { path := pathOfJson? path, file := file.text?, isIndex := index.bool?
      children := listOfJson? children }
  | _ => {}

/-- The entries that an array of values stands for. -/
def listOfJson? : Json → Option (List Entry)
  | .array items => ofEach? items
  | _ => none

/-- The entries that values stand for, if each stands for one. -/
def ofEach? : List Json → Option (List Entry)
  | [] => some []
  | item :: rest => do return (← ofJson? item) :: (← ofEach? rest)

end

end FileRoutes.Entry
