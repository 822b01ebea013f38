import FileRoutes.Job
import FileRoutes.Options
import FileRoutes.StableSort

/-!
# A tree of files on a disk

A **disk** is what the operating system shows of its files: directories and files at absolute
places, and a working directory where relative paths start. A place holds a file or a directory or
nothing. A path is followed name by name, and every name but the last has to lead to a directory;
`.` stays and `..` goes up to the directory above. A call on a path that cannot be followed is
refused, with the reason that the first failing name gives.

Every name on a disk is Unicode text, and a listing gives it as it is. Links and permissions are
left out.
-/

namespace FileRoutes

/-- A tree of files as the operating system shows it. -/
structure Disk where
  /-- The working directory, as names from the root. -/
  here : List String := []
  /-- The directories below the root, as names from the root. -/
  dirs : List (List String) := []
  /-- The files with their contents. -/
  files : List (List String × ByteArray) := []

namespace Disk

/-- Where a path leads. -/
inductive Spot where
  /-- To a directory. -/
  | directory (place : List String)
  /-- To a file. -/
  | file (place : List String)
  /-- To a free name in a directory. -/
  | free (place : List String)
deriving DecidableEq, Repr

/-- What is at a place whose directory is there. -/
def spotAt (d : Disk) (place : List String) : Spot :=
  if place.isEmpty || d.dirs.contains place then .directory place
  else if d.files.any fun file => file.1 = place then .file place
  else .free place

/-- The longest name of an entry, in bytes. -/
def nameBound : Nat := 255

/-- The longest path, in bytes. -/
def pathBound : Nat := 4095

/-- Where a name leads from the directory at `place`. -/
def step (d : Disk) (place : List String) (name : String) : Except Refusal Spot :=
  if name = "." then .ok (.directory place)
  else if name = ".." then .ok (.directory place.dropLast)
  else if nameBound < name.utf8ByteSize then .error .nameTooLong
  else .ok (d.spotAt (place ++ [name]))

/-- Follows names from the directory at `place`. -/
def follow (d : Disk) : (names place : List String) → Except Refusal Spot
  | [], place => .ok (.directory place)
  | [name], place => d.step place name
  | name :: rest, place =>
    match d.step place name with
    | .ok (.directory place) => d.follow rest place
    | .ok (.file _) => .error .notADirectory
    | .ok (.free _) => .error .notFound
    | .error refusal => .error refusal

/-- Where a path leads. Only a directory has a path with a slash at the end. -/
def locate (d : Disk) (path : Path) : Except Refusal Spot :=
  if path.text.isEmpty then .error .notFound
  else if path.text.toList.contains '\x00' then .error .impossiblePath
  else if pathBound < path.text.utf8ByteSize then .error .nameTooLong
  else
    match d.follow path.names (if path.isAbsolute then [] else d.here) with
    | .ok (.file place) => if path.endsInSlash then .error .notADirectory else .ok (.file place)
    | result => result

/-! ### Looking -/

/-- The name of a place in the directory `parent`, if it is an entry of that. -/
def entryName? (parent place : List String) : Option String :=
  if place.dropLast = parent then place.getLast? else none

/-- The first entry may stand before the second. -/
def inNameOrder (a b : Listed) : Bool :=
  a.name ≤ b.name

/-- The entries of a directory, by name. -/
def entriesOf (d : Disk) (parent : List String) : List Listed :=
  let dirs : List Listed := (d.dirs.filterMap (entryName? parent)).map (⟨·, true⟩)
  let files : List Listed :=
    ((d.files.map Prod.fst).filterMap (entryName? parent)).map (⟨·, false⟩)
  stableSort inNameOrder (dirs ++ files)

/-- Lists the directory that a path leads to. -/
def list (d : Disk) (path : Path) : Except Refusal (List Listed) :=
  match d.locate path with
  | .ok (.directory place) => .ok (d.entriesOf place)
  | .ok (.file _) => .error .notADirectory
  | .ok (.free _) => .error .notFound
  | .error refusal => .error refusal

/-- Whether a path leads to something. A path that leads nowhere is no refusal, but one that
cannot be followed is. -/
def probe (d : Disk) (path : Path) : Except Refusal Bool :=
  match d.locate path with
  | .ok (.free _) => .ok false
  | .ok _ => .ok true
  | .error .notFound => .ok false
  | .error refusal => .error refusal

/-- A path leads to a directory. -/
def isDirectory (d : Disk) (path : Path) : Bool :=
  match d.locate path with
  | .ok (.directory _) => true
  | _ => false

/-- What is found where an options file may be. -/
def optionsSource (d : Disk) (path : Path) : Options.Source :=
  match d.locate path with
  | .ok (.directory _) => .unreadable .isADirectory
  | .ok (.file place) =>
    match (d.files.lookup place).bind String.fromUTF8? with
    | some text => .text text
    | none => .unreadable .notText
  | _ => .absent

/-! ### Writing -/

/-- Gives the file at a place new contents, or appends it. -/
def setContents (place : List String) (contents : ByteArray) :
    List (List String × ByteArray) → List (List String × ByteArray)
  | [] => [(place, contents)]
  | file :: rest =>
    if file.1 = place then (place, contents) :: rest
    else file :: setContents place contents rest

/-- Writes the file that a path leads to. -/
def write (d : Disk) (path : Path) (contents : ByteArray) : Except Refusal Disk :=
  match d.locate path with
  | .ok (.directory _) => .error .isADirectory
  | .ok (.file place) => .ok { d with files := setContents place contents d.files }
  | .ok (.free place) =>
    if path.endsInSlash then .error .isADirectory
    else .ok { d with files := setContents place contents d.files }
  | .error refusal => .error refusal

/-- Makes one directory. -/
def makeOne (d : Disk) (path : Path) : Except Refusal Disk :=
  match d.locate path with
  | .ok (.free place) => .ok { d with dirs := d.dirs ++ [place] }
  | .ok _ => .error .alreadyThere
  | .error refusal => .error refusal

/-- Makes one directory, or is content with the one that is there. -/
def makeOrKeep (d : Disk) (path : Path) : Except Refusal Disk :=
  match d.makeOne path with
  | .ok made => .ok made
  | .error refusal => if d.isDirectory path then .ok d else .error refusal

/-- Makes the first of the paths, each of which lies in the next one: where a directory is
missing, those above are made before it. -/
def makeLine (d : Disk) : List Path → Except Refusal Disk
  | [] => .ok d
  | path :: above =>
    match d.makeOrKeep path with
    | .error .notFound =>
      match d.makeLine above with
      | .ok made => made.makeOrKeep path
      | .error refusal => .error refusal
    | result => result

/-- Makes a directory with all its ancestors. -/
def makeDirectory (d : Disk) (path : Path) : Except Refusal Disk :=
  if path.text.isEmpty then .ok d else d.makeLine (path :: path.ancestors)

/-- The result of a change to the disk. A change that is refused changes nothing. -/
def settle (kind : Call.Kind) (path : Path) (d : Disk) :
    Except Refusal Disk → Except Fault Unit × Disk
  | .ok changed => (.ok (), changed)
  | .error refusal => (.error (.refused kind path refusal), d)

/-- The disk answers calls and changes with them. -/
def storage : Storage (StateM Disk)
  | .list path => fun d => ((d.list path).mapError (.refused .list path), d)
  | .probe path => fun d => ((d.probe path).mapError (.refused .probe path), d)
  | .write path contents => fun d => settle .write path d (d.write path contents.toUTF8)
  | .makeDirectory path => fun d => settle .makeDirectory path d (d.makeDirectory path)

/-- The name of this sort of storage. -/
def storageName : String := "disk"

/-- The greatest number of names that lead to a directory. -/
def depth (d : Disk) : Nat :=
  (d.dirs.map List.length).foldl max 0

end Disk

end FileRoutes
