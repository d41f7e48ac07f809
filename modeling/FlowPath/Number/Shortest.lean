import FlowPath.Number.Binary64

/-!
# The fewest digits that read back

A finite double is written with the fewest decimal digits that still read as the same double.
The numbers that read as `mantissa * 2 ^ exponent` form an interval around it, closed when the
mantissa is even. For every grid of powers of ten, from the one with a single digit on, the two
grid points next to the double are tried; the first grid with a point in the interval wins, and
of two points the nearer one.
-/

namespace FlowPath

/-- The number `digits * 10 ^ exponent`. -/
structure DecimalDigits where
  digits : Nat
  exponent : Int
deriving DecidableEq, Repr

/-- Which of two grid points is taken when the double lies halfway between them. -/
inductive TieRule where
  | up
  | toEven
deriving DecidableEq, Repr

namespace DecimalDigits

/-- The interval of numbers that read as one double, in units of a quarter of its last place:
`4 * mantissa - low` to `4 * mantissa + 2`. -/
structure ReadingInterval where
  low : Nat
  center : Nat
  high : Nat
  closed : Bool
deriving DecidableEq, Repr

/-- Below a power of two the doubles lie twice as close, so the interval reaches half as far. -/
def readingInterval (mantissa : Nat) (exponent : Int) : ReadingInterval :=
  let reach :=
    if mantissa = Binary64.leastNormal ∧ Binary64.leastExponent < exponent then 1 else 2
  { low := 4 * mantissa - reach
    center := 4 * mantissa
    high := 4 * mantissa + 2
    closed := mantissa % 2 == 0 }

def ReadingInterval.contains (i : ReadingInterval) (scale point : Nat) : Bool :=
  if i.closed then decide (i.low * scale ≤ point) && decide (point ≤ i.high * scale)
  else decide (i.low * scale < point) && decide (point < i.high * scale)

/-- The number of decimal digits of a positive number. -/
def digitCount (n : Nat) : Nat := (Nat.toDigits 10 n).length

/-- The exponent of the leading decimal digit of `mantissa * 2 ^ exponent`. -/
def leadingExponent (mantissa : Nat) (exponent : Int) : Int :=
  let num := mantissa * Nat.pow 2 exponent.toNat
  let den := Nat.pow 2 (-exponent).toNat
  if den ≤ num then (digitCount (num / den) : Int) - 1
  else -(digitCount ((den - 1) / num) : Int)

/-- The point of the grid of multiples of `10 ^ place` that reads back, if there is one. Numbers of
the interval times `scale` and grid points times `step` are measured in the same unit. -/
def onGrid? (tie : TieRule) (interval : ReadingInterval) (exponent place : Int) : Option Nat :=
  let quarter := exponent - 2
  let scale := Nat.pow 2 quarter.toNat * Nat.pow 10 (-place).toNat
  let step := Nat.pow 10 place.toNat * Nat.pow 2 (-quarter).toNat
  let center := interval.center * scale
  let below := center / step
  let above := below + 1
  match interval.contains scale (below * step), interval.contains scale (above * step) with
  | false, false => none
  | true, false => some below
  | false, true => some above
  | true, true =>
    let toBelow := center - below * step
    let toAbove := above * step - center
    if toBelow < toAbove then some below
    else if toAbove < toBelow then some above
    else
      match tie with
      | .up => some above
      | .toEven => some (if below % 2 = 0 then below else above)

/-- Tries the grids from `place` downward, at most `count` of them. -/
def search (tie : TieRule) (interval : ReadingInterval) (exponent : Int) :
    Nat → Int → DecimalDigits
  | 0, place => { digits := 0, exponent := place }
  | count + 1, place =>
    match onGrid? tie interval exponent place with
    | some digits => { digits, exponent := place }
    | none => search tie interval exponent count (place - 1)

/-- The same number without zeros at the end of its digits, of which at most `count` go. -/
def dropZeros : Nat → DecimalDigits → DecimalDigits
  | 0, d => d
  | count + 1, d =>
    if d.digits % 10 = 0 then
      dropZeros count { digits := d.digits / 10, exponent := d.exponent + 1 }
    else d

/-- Seventeen digits tell all doubles apart. -/
def mostDigits : Nat := 17

/-- The fewest digits that read as the positive double `mantissa * 2 ^ exponent`. -/
def shortest (tie : TieRule) (mantissa : Nat) (exponent : Int) : DecimalDigits :=
  dropZeros mostDigits
    (search tie (readingInterval mantissa exponent) exponent mostDigits
      (leadingExponent mantissa exponent))

end DecimalDigits

end FlowPath
