/-!
# JSON values

A **value** is null, a truth value, a number, a string, an array or an object. A number is kept as
its numeral, and an object as the list of its members in order; where two members have one name,
the last one counts.
-/

namespace FileRoutes

/-- A JSON value. -/
inductive Json where
  | null
  | bool (b : Bool)
  /-- A number, as its numeral. -/
  | number (numeral : String)
  | string (text : String)
  | array (items : List Json)
  /-- An object, as its members in order. -/
  | object (members : List (String × Json))
deriving Repr, Inhabited, BEq

namespace Json

/-- The text of a string. -/
def text? : Json → Option String
  | .string text => some text
  | _ => none

/-- The truth value. -/
def bool? : Json → Option Bool
  | .bool b => some b
  | _ => none

end Json

end FileRoutes
