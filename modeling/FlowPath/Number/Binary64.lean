/-!
# Doubles as exact numbers

`parts` reads a double as a sign and an exact number `mantissa * 2 ^ exponent`, and `ofRatio` goes
back: it gives the double nearest to a quotient of natural numbers, where of two equally near
doubles the one with the even mantissa wins. Arithmetic that the hardware does not offer, such as
the remainder of a division, is done between the two in natural numbers, so it is exact.
-/

namespace FlowPath.Binary64

/-- The bit of the sign. -/
def signBit : Nat := 0x8000000000000000

/-- What a double stands for. A finite one is `mantissa * 2 ^ exponent` with its sign. -/
inductive Parts where
  | nan
  | infinite (negative : Bool)
  | finite (negative : Bool) (mantissa : Nat) (exponent : Int)
deriving DecidableEq, Repr

/-- The mantissa of a normal double lies in `[leastNormal, 2 * leastNormal)`. -/
def leastNormal : Nat := 0x10000000000000

/-- The exponent of the smallest doubles. -/
def leastExponent : Int := -1074

/-- The bits of positive infinity, one more than those of the largest finite double. -/
def infinityBits : Nat := 0x7ff0000000000000

def partsOfBits (bits : Nat) : Parts :=
  let negative := decide (signBit ≤ bits)
  let biased := bits / leastNormal % 2048
  let fraction := bits % leastNormal
  if biased = 2047 then
    if fraction = 0 then .infinite negative else .nan
  else if biased = 0 then .finite negative fraction leastExponent
  else .finite negative (leastNormal + fraction) ((biased : Int) - 1075)

def parts (x : Float) : Parts := partsOfBits x.toBits.toNat

/-- The double with the given sign and the given bits below the sign. -/
def ofMagnitude (negative : Bool) (bits : Nat) : Float :=
  Float.ofBits (UInt64.ofNat (bits + if negative then signBit else 0))

def nan : Float := Float.ofBits 0x7ff8000000000000

/-- The whole number below the binary logarithm of a positive quotient. -/
def ratioLog2 (num den : Nat) : Int :=
  let guess : Int := (num.log2 : Int) - (den.log2 : Int)
  if den * Nat.pow 2 guess.toNat ≤ num * Nat.pow 2 (-guess).toNat then guess else guess - 1

/-- The quotient rounded to a whole number, a half to the even neighbour. -/
def roundDiv (num den : Nat) : Nat :=
  let quotient := num / den
  let doubled := 2 * (num % den)
  if den < doubled || (doubled == den && quotient % 2 == 1) then quotient + 1 else quotient

/-- The bits of the double nearest to `num / den`. The mantissa is rounded at the exponent that
gives it 53 bits, or at the least exponent; a carry out of the mantissa goes into the exponent,
and past the largest double into infinity. -/
def nearestBits (num den : Nat) : Nat :=
  if num = 0 then 0
  else
    let exponent := max (ratioLog2 num den - 52) leastExponent
    let mantissa :=
      roundDiv (num * Nat.pow 2 (-exponent).toNat) (den * Nat.pow 2 exponent.toNat)
    min ((exponent - leastExponent).toNat * leastNormal + mantissa) infinityBits

/-- The double nearest to `num / den`, with the given sign. -/
def ofRatio (negative : Bool) (num den : Nat) : Float :=
  ofMagnitude negative (nearestBits num den)

/-- The double nearest to `mantissa * 2 ^ exponent`, with the given sign. -/
def ofDyadic (negative : Bool) (mantissa : Nat) (exponent : Int) : Float :=
  ofRatio negative (mantissa * Nat.pow 2 exponent.toNat) (Nat.pow 2 (-exponent).toNat)

/-- The double nearest to a natural number. -/
def ofNat (n : Nat) : Float := ofRatio false n 1

/-- The double nearest to a whole number. -/
def ofInt (n : Int) : Float := ofRatio (n < 0) n.natAbs 1

/-- The remainder of the division toward zero. It has the sign of the dividend, and it is exact:
both numbers are multiples of the smaller power of two. -/
def remainder (x y : Float) : Float :=
  match parts x, parts y with
  | .finite negative m e, .finite _ n f =>
    if n = 0 then nan
    else
      let unit := min e f
      let dividend := m * Nat.pow 2 (e - unit).toNat
      let divisor := n * Nat.pow 2 (f - unit).toNat
      ofDyadic negative (dividend % divisor) unit
  | .finite .., .infinite _ => x
  | _, _ => nan

/-- The whole number that the double is, if it is one. -/
def toInt? (x : Float) : Option Int :=
  match parts x with
  | .finite negative mantissa exponent =>
    let size := mantissa * Nat.pow 2 exponent.toNat
    let unit := Nat.pow 2 (-exponent).toNat
    if size % unit = 0 then
      let whole : Int := (size / unit : Nat)
      some (if negative then -whole else whole)
    else none
  | _ => none

end FlowPath.Binary64
