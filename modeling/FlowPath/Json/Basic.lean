import FlowPath.Number.Decimal

/-!
# JSON values

The JSON values that the library reads and writes. An object keeps its members in the order in
which their names first came. A number remembers whether it was written as a whole number, since
some readers take nothing else.
-/

namespace FlowPath

/-- A number of a JSON text. -/
inductive JsonNumber where
  | whole (value : Int)
  | real (value : Float)

/-- A JSON value. -/
inductive Json where
  | null
  | bool (value : Bool)
  | number (value : JsonNumber)
  | string (value : String)
  | array (elements : List Json)
  | object (members : List (String × Json))

/-- What is wrong with a JSON text, or with the value that it holds. -/
inductive JsonError where
  /-- The text is not JSON. -/
  | malformed
  /-- The value has another type or range than the one asked for, or a name comes twice. -/
  | mismatch
  /-- A text that should spell a truth value does not. -/
  | notBoolean (text : String)
deriving DecidableEq, Repr

namespace JsonError

def message : JsonError → String
  | .malformed => "<json syntax>"
  | .mismatch => "<json data>"
  | .notBoolean text =>
    "invalid boolean value: '" ++ text ++ "'. Expected true, false, 'true', or 'false'"

end JsonError

namespace JsonNumber

def toFloat : JsonNumber → Float
  | .whole value => Binary64.ofInt value
  | .real value => value

end JsonNumber

namespace Json

/-- Adds a member; a later member of the same name takes the place of the earlier one. -/
def setMember (name : String) (value : Json) : List (String × Json) → List (String × Json)
  | [] => [(name, value)]
  | (other, old) :: rest =>
    if other = name then (name, value) :: rest else (other, old) :: setMember name value rest

end Json

end FlowPath
