import FlowPath.Number.Shortest

/-!
# Number texts

How the digits of a number are laid out: the places that are written out with a point, the mark
of a whole number, and which digits are taken when two choices are equally near. Each format of
the library is one `Layout`.
-/

namespace FlowPath

/-- A format of finite numbers. -/
structure Layout where
  /-- Which digits stand for a double halfway between two decimals. -/
  tie : TieRule
  /-- The leading exponents that are written out; the others have an exponent mark. -/
  writtenOut : Int → Bool
  /-- What follows a whole number that is written out. -/
  wholeMark : String

namespace Layout

def zeros (n : Nat) : List Char := List.replicate n '0'

/-- The digits with a point where it belongs. -/
def pointed (wholeMark : String) (digits : List Char) (exponent : Int) : List Char :=
  if 0 ≤ exponent then digits ++ zeros exponent.toNat ++ wholeMark.toList
  else
    let places := (-exponent).toNat
    if places < digits.length then
      digits.take (digits.length - places) ++ '.' :: digits.drop (digits.length - places)
    else '0' :: '.' :: zeros (places - digits.length) ++ digits

/-- The digits with the point after the first one and the exponent with its sign. -/
def scientific (digits : List Char) (leading : Int) : List Char :=
  let mantissa :=
    match digits with
    | first :: second :: rest => first :: '.' :: second :: rest
    | few => few
  let sign := if leading < 0 then '-' else '+'
  mantissa ++ 'e' :: sign :: Nat.toDigits 10 leading.natAbs

/-- The text of a decimal number. -/
def renderDigits (layout : Layout) (d : DecimalDigits) : List Char :=
  let digits := Nat.toDigits 10 d.digits
  let leading := d.exponent + digits.length - 1
  if layout.writtenOut leading then pointed layout.wholeMark digits d.exponent
  else scientific digits leading

/-- The text of the finite double `mantissa * 2 ^ exponent` with its sign. -/
def render (layout : Layout) (negative : Bool) (mantissa : Nat) (exponent : Int) : String :=
  let text := layout.renderDigits (.shortest layout.tie mantissa exponent)
  String.ofList (if negative then '-' :: text else text)

end Layout

end FlowPath
