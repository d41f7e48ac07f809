import FlowPath.Json.Writer
import FlowPath.Value.Basic

/-!
# Values as JSON

Lists, texts, truth values and numbers are written as they are, `undefined` as `null`. A whole
number below 2^53 is written without a point. Back from JSON, objects have no counterpart and become
`undefined` like `null`.
-/

namespace FlowPath.Value

/-- Whole numbers below this bound are written as whole numbers. -/
def wholeLimit : Nat := 0x20000000000000

def numberJson (x : Float) : Json :=
  match Binary64.toInt? x with
  | some n => if n.natAbs < wholeLimit then .number (.whole n) else .number (.real x)
  | none => .number (.real x)

mutual

def toJson : Value → Json
  | .undefined => .null
  | .boolean value => .bool value
  | .number value => numberJson value
  | .string value => .string value
  | .array elements => .array (toJsonElements elements [])

/-- The elements after those in `done`, whose last one comes first. -/
def toJsonElements : List Value → List Json → List Json
  | [], done => done.reverse
  | element :: rest, done => toJsonElements rest (toJson element :: done)

end

mutual

def ofJson : Json → Value
  | .null => .undefined
  | .bool value => .boolean value
  | .number value => .number value.toFloat
  | .string value => .string value
  | .array elements => .array (ofJsonElements elements [])
  | .object _ => .undefined

/-- The elements after those in `done`, whose last one comes first. -/
def ofJsonElements : List Json → List Value → List Value
  | [], done => done.reverse
  | element :: rest, done => ofJsonElements rest (ofJson element :: done)

end

end FlowPath.Value
