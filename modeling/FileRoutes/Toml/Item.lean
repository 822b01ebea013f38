/-!
# TOML tables

A TOML document is a table of named items. Tables come about in four ways, and the way decides
what may be added to them later: a table opened by a **header**, one **implied** by a longer
header, one made by a **dotted** key, and one written **inline**, which is closed. A header opens
a table once; it may open one that was only implied so far. A dotted key adds to tables that
dotted keys made, and to no other. A double header appends a table to an array of tables, and a
path that leads through such an array goes on in its last table.
-/

namespace FileRoutes.Toml

/-- How a table came about. -/
inductive Origin where
  /-- Opened by a header. -/
  | header
  /-- Implied by a longer header. -/
  | implied
  /-- Made by a dotted key. -/
  | dotted
  /-- Written in braces. -/
  | inlined
deriving DecidableEq, Repr

/-- An item of a TOML document. -/
inductive Item where
  | string (text : String)
  | integer (value : Int)
  /-- A floating-point number, as its numeral. -/
  | float (numeral : String)
  | boolean (value : Bool)
  /-- A date, a time of day or both, as written. -/
  | moment (text : String)
  | array (items : List Item)
  | table (origin : Origin) (members : List (String × Item))
  /-- An array of tables, each made by a double header. -/
  | tables (elements : List (List (String × Item)))
deriving Repr, Inhabited

/-- The items of a table by name, in order of definition. -/
abbrev Members := List (String × Item)

/-- What can be wrong with a document. -/
inductive Mistake where
  /-- No sentence of the grammar goes on here, where so many characters are left. -/
  | unexpected (left : Nat)
  /-- Arrays and inline tables nest too deeply, or a key has too many parts. -/
  | tooDeep
  /-- A number too large for its type. -/
  | outOfRange (numeral : String)
  /-- A name that is defined twice. -/
  | duplicate (name : String)
  /-- A name that stands for no table that could be added to. -/
  | noTable (name : String)
  /-- An item of another type than the reader of the document needs. -/
  | wrongType (name : String)
deriving DecidableEq, Repr

/-- The mistake in words. -/
def Mistake.message : Mistake → String
  | .unexpected left => "unexpected text with " ++ toString left ++ " characters left"
  | .tooDeep => "nested too deeply"
  | .outOfRange numeral => "number out of range: " ++ numeral
  | .duplicate name => "duplicate key: " ++ name
  | .noTable name => "not a table: " ++ name
  | .wrongType name => "invalid type: " ++ name

namespace Members

/-- Sets the item of a name that is there, or appends it. -/
def set (name : String) (item : Item) : Members → Members
  | [] => [(name, item)]
  | (other, old) :: rest =>
    if other = name then (name, item) :: rest else (other, old) :: set name item rest

/-- Adds an item under a new name. -/
def define (members : Members) (name : String) (item : Item) : Except Mistake Members :=
  match members.lookup name with
  | some _ => .error (.duplicate name)
  | none => .ok (members ++ [(name, item)])

/-- Changes the table that the header path `steps` leads to; tables that are missing on the way
are implied. -/
def atHeader (change : Members → Except Mistake Members) :
    List String → Members → Except Mistake Members
  | [], members => change members
  | step :: steps, members =>
    match members.lookup step with
    | none => do
      return members.set step (.table .implied (← atHeader change steps []))
    | some (.tables elements) => do
      let last ← atHeader change steps (elements.getLast?.getD [])
      return members.set step (.tables (elements.dropLast ++ [last]))
    | some (.table .inlined _) => .error (.noTable step)
    | some (.table origin inner) => do
      return members.set step (.table origin (← atHeader change steps inner))
    | some _ => .error (.noTable step)

/-- Adds an item under the last part of a dotted key whose other parts are `steps`. The table that
takes the item has to be one that dotted keys made. -/
def atDotted (name : String) (item : Item) : List String → Members → Except Mistake Members
  | [], members => members.define name item
  | step :: steps, members =>
    match members.lookup step with
    | none => do
      return members.set step (.table .dotted (← atDotted name item steps []))
    | some (.table .dotted inner) => do
      return members.set step (.table .dotted (← atDotted name item steps inner))
    | some (.table .implied inner) =>
      if steps.isEmpty then .error (.duplicate name)
      else do return members.set step (.table .implied (← atDotted name item steps inner))
    | some (.tables elements) =>
      if steps.isEmpty then .error (.duplicate name)
      else do
        let last ← atDotted name item steps (elements.getLast?.getD [])
        return members.set step (.tables (elements.dropLast ++ [last]))
    | some (.table _ _) => .error (.duplicate step)
    | some _ => .error (.noTable step)

/-- Opens the table `name` by a header. -/
def openTable (name : String) (members : Members) : Except Mistake Members :=
  match members.lookup name with
  | none => .ok (members ++ [(name, .table .header [])])
  | some (.table .implied inner) => .ok (members.set name (.table .header inner))
  | some _ => .error (.duplicate name)

/-- Appends a table to the array of tables `name`. -/
def appendTable (name : String) (members : Members) : Except Mistake Members :=
  match members.lookup name with
  | none => .ok (members ++ [(name, .tables [[]])])
  | some (.tables elements) => .ok (members.set name (.tables (elements ++ [[]])))
  | some _ => .error (.duplicate name)

end Members

end FileRoutes.Toml
