import FlowPath.Number.Binary64
import FlowPath.Text.Basic

/-!
# Decimal numerals

A numeral is digits with an optional point among them and an optional exponent: `1`, `1.5`, `1.`,
`.5` and `1e-3`, but neither `.` nor `1e`. It stands for an exact number, of which `toFloat` gives
the nearest double.
-/

namespace FlowPath

open FlowPath.Text (isDigit)

/-- The number `significand * 10 ^ exponent` with its sign. -/
structure Decimal where
  negative : Bool
  significand : Nat
  exponent : Int
deriving DecidableEq, Repr

namespace Decimal

def digitValue (c : Char) : Nat := c.toNat - '0'.toNat

/-- The number that the digits write, most significant first. -/
def valueOfDigits (digits : List Char) : Nat :=
  digits.foldl (fun value c => 10 * value + digitValue c) 0

/-- The number written `whole.fraction` times ten to the exponent. -/
def ofPieces (negative : Bool) (whole fraction : List Char) (exponent : Int) : Decimal :=
  { negative
    significand := valueOfDigits (whole ++ fraction)
    exponent := exponent - fraction.length }

/-- Splits a sign off: `true` for a minus. -/
def splitSign : List Char → Bool × List Char
  | '-' :: rest => (true, rest)
  | '+' :: rest => (false, rest)
  | text => (false, text)

/-- The exponent that follows the digits, zero if there is none. -/
def exponent? : List Char → Option Int
  | [] => some 0
  | mark :: rest =>
    if mark = 'e' ∨ mark = 'E' then
      let (negative, digits) := splitSign rest
      if digits.isEmpty || !digits.all isDigit then none
      else
        let size : Int := valueOfDigits digits
        some (if negative then -size else size)
    else none

/-- Splits off the digits after a point, if there is a point. -/
def splitFraction : List Char → List Char × List Char
  | '.' :: rest => rest.span isDigit
  | text => ([], text)

/-- The numeral that makes up the whole text, with an optional sign. -/
def parse? (text : List Char) : Option Decimal :=
  let (negative, unsigned) := splitSign text
  let (whole, afterWhole) := unsigned.span isDigit
  let (fraction, afterFraction) := splitFraction afterWhole
  if whole.isEmpty && fraction.isEmpty then none
  else (exponent? afterFraction).map (ofPieces negative whole fraction)

/-- The double nearest to the number. An exponent so large that no significand can bring the number
back into the range of doubles is decided without computing the power of ten. -/
def toFloat (d : Decimal) : Float :=
  if d.significand = 0 then Binary64.ofMagnitude d.negative 0
  else if 400 < d.exponent then Binary64.ofMagnitude d.negative Binary64.infinityBits
  else if d.exponent < -400 - (d.significand.log2 : Int) then Binary64.ofMagnitude d.negative 0
  else
    Binary64.ofRatio d.negative (d.significand * Nat.pow 10 d.exponent.toNat)
      (Nat.pow 10 (-d.exponent).toNat)

end Decimal

end FlowPath
