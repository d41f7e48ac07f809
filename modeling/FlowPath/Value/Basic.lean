import FlowPath.Number.Decimal
import FlowPath.Number.Layout
import FlowPath.Text.Basic

/-!
# Values

The values that conditions and assignments compute with, and their conversions: truth, number and
text. A list counts as the text of its elements, joined by commas, wherever a list is of no use.
-/

namespace FlowPath

inductive Value where
  | undefined
  | boolean (value : Bool)
  | number (value : Float)
  | string (value : String)
  | array (elements : List Value)
deriving Inhabited

namespace Value

def isUndefined : Value → Bool
  | .undefined => true
  | _ => false

def isArray : Value → Bool
  | .array _ => true
  | _ => false

def typeName : Value → String
  | .undefined => "undefined"
  | .boolean _ => "boolean"
  | .number _ => "number"
  | .string _ => "string"
  | .array _ => "array"

/-- What a condition makes of the value: zeros, not-a-number and the empty text count as false. -/
def isTrue : Value → Bool
  | .undefined => false
  | .boolean value => value
  | .number value => value != 0 && !value.isNaN
  | .string value => !value.isEmpty
  | .array _ => true

/-- Numbers have all their places written out and no mark on whole numbers; of two equally near
decimals the larger one is taken. -/
def numberLayout : Layout where
  tie := .up
  writtenOut _ := true
  wholeMark := ""

def numberText (x : Float) : String :=
  match Binary64.parts x with
  | .nan => "NaN"
  | .infinite negative => if negative then "-Infinity" else "Infinity"
  | .finite negative mantissa exponent =>
    if mantissa = 0 then "0" else numberLayout.render negative mantissa exponent

mutual

/-- Adds an element of a list, where `undefined` leaves its place empty. -/
def putElement : Value → String → String
  | .undefined, out => out
  | .boolean value, out => out ++ (if value then "true" else "false")
  | .number value, out => out ++ numberText value
  | .string value, out => out ++ value
  | .array [], out => out
  | .array (first :: rest), out => putElements rest (putElement first out)

/-- Adds the elements after the first one. -/
def putElements : List Value → String → String
  | [], out => out
  | element :: rest, out => putElements rest (putElement element (out.push ','))

end

/-- The text of a value. -/
def display : Value → String
  | .undefined => "undefined"
  | value => putElement value ""

/-- The number that a text writes: blanks around it do not count, the empty text is zero, and a text
that is no numeral is not a number. -/
def numberOfText (text : String) : Float :=
  let trimmed := Text.trim text.toList
  if trimmed.isEmpty then Binary64.ofMagnitude false 0
  else if trimmed = "Infinity".toList ∨ trimmed = "+Infinity".toList then
    Binary64.ofMagnitude false Binary64.infinityBits
  else if trimmed = "-Infinity".toList then Binary64.ofMagnitude true Binary64.infinityBits
  else
    match Decimal.parse? trimmed with
    | some numeral => numeral.toFloat
    | none => Binary64.nan

/-- The value as a number. -/
def toNumber : Value → Float
  | .undefined => Binary64.nan
  | .boolean value => if value then 1 else 0
  | .number value => value
  | .string value => numberOfText value
  | .array elements => numberOfText (display (.array elements))

/-- The value itself, or for a list its text. -/
def toPrimitive : Value → Value
  | .array elements => .string (display (.array elements))
  | value => value

/-- Positions are whole numbers of 32 bits. -/
def mostPosition : Int := 4294967295

/-- The position in a list that the value names, if it names one. -/
def position? (value : Value) : Option Nat :=
  match Binary64.toInt? value.toPrimitive.toNumber with
  | some n => if 0 ≤ n ∧ n ≤ mostPosition then some n.toNat else none
  | none => none

end Value

end FlowPath
