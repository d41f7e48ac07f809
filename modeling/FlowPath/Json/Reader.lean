import FlowPath.Json.Basic

/-!
# Reading JSON

A reader takes a value off the front of a text. Reading is strict: no comments, no comma after the
last element, no leading zeros, no raw control characters in strings, no half of a surrogate pair
on its own, no number beyond the range of doubles. Containers nest at most `mostLevels` deep. A
value that nobody asked for is skipped; there the shape is checked, but neither the nesting nor the
range of numbers nor the pairing of surrogates.
-/

namespace FlowPath.Json

open FlowPath.Text (isDigit)

/-- Takes a value off the front of a text. -/
abbrev Reader (α : Type) := List Char → Except JsonError (α × List Char)

/-- How many containers may stand inside each other. -/
def mostLevels : Nat := 127

def isSpace (c : Char) : Bool := c == ' ' || c == '\n' || c == '\t' || c == '\r'

def skipSpace (text : List Char) : List Char := text.dropWhile isSpace

/-- Takes the given characters off the front. -/
def readWord : List Char → Reader Unit
  | [], text => .ok ((), text)
  | _ :: _, [] => .error .malformed
  | c :: word, d :: text => if c = d then readWord word text else .error .malformed

/-! ## Strings -/

def hexValue? (c : Char) : Option Nat :=
  if isDigit c then some (c.toNat - '0'.toNat)
  else if 'a' ≤ c ∧ c ≤ 'f' then some (c.toNat - 'a'.toNat + 10)
  else if 'A' ≤ c ∧ c ≤ 'F' then some (c.toNat - 'A'.toNat + 10)
  else none

/-- The number that four hexadecimal digits write. -/
def readUnit : Reader Nat
  | a :: b :: c :: d :: text =>
    match hexValue? a, hexValue? b, hexValue? c, hexValue? d with
    | some a, some b, some c, some d => .ok (((a * 16 + b) * 16 + c) * 16 + d, text)
    | _, _, _, _ => .error .malformed
  | _ => .error .malformed

def isHighSurrogate (unit : Nat) : Bool := decide (0xD800 ≤ unit) && decide (unit < 0xDC00)

def isLowSurrogate (unit : Nat) : Bool := decide (0xDC00 ≤ unit) && decide (unit < 0xE000)

/-- The character of an escape that is a single letter. -/
def letterEscape? (c : Char) : Option Char :=
  if c = '"' ∨ c = '\\' ∨ c = '/' then some c
  else if c = 'b' then some '\x08'
  else if c = 'f' then some '\x0c'
  else if c = 'n' then some '\n'
  else if c = 'r' then some '\r'
  else if c = 't' then some '\t'
  else none

/-- The character of a numbered escape. A character beyond the first plane is a pair of them. -/
def readNumbered (text : List Char) : Except JsonError (Char × List Char) := do
  let (unit, text) ← readUnit text
  if isLowSurrogate unit then .error .malformed
  else if isHighSurrogate unit then
    let ((), text) ← readWord ['\\', 'u'] text
    let (low, text) ← readUnit text
    if isLowSurrogate low then
      return (Char.ofNat (0x10000 + (unit - 0xD800) * 0x400 + (low - 0xDC00)), text)
    else .error .malformed
  else return (Char.ofNat unit, text)

/-- The rest of a string after its opening quote. At most `fuel` characters are looked at; `done`
holds what was read, last character first. -/
def readChars : Nat → List Char → Reader String
  | 0, _, _ => .error .malformed
  | _ + 1, _, [] => .error .malformed
  | fuel + 1, done, c :: text =>
    if c = '"' then .ok (String.ofList done.reverse, text)
    else if c = '\\' then
      match text with
      | [] => .error .malformed
      | 'u' :: text => do
        let (c, text) ← readNumbered text
        readChars fuel (c :: done) text
      | letter :: text =>
        match letterEscape? letter with
        | some c => readChars fuel (c :: done) text
        | none => .error .malformed
    else if c.toNat < 0x20 then .error .malformed
    else readChars fuel (c :: done) text

/-- The rest of a string after its opening quote. -/
def readString : Reader String := fun text => readChars (text.length + 1) [] text

/-- Skips the rest of a string. -/
def skipChars : Nat → Reader Unit
  | 0, _ => .error .malformed
  | _ + 1, [] => .error .malformed
  | fuel + 1, c :: text =>
    if c = '"' then .ok ((), text)
    else if c = '\\' then
      match text with
      | [] => .error .malformed
      | 'u' :: text => do
        let (_, text) ← readUnit text
        skipChars fuel text
      | letter :: text =>
        if (letterEscape? letter).isSome then skipChars fuel text else .error .malformed
    else if c.toNat < 0x20 then .error .malformed
    else skipChars fuel text

/-! ## Numbers -/

/-- The parts of a number as it is written. -/
structure Written where
  negative : Bool
  whole : List Char
  fraction : Option (List Char)
  exponent : Option Int

/-- Digits, at least one. -/
def readDigits : Reader (List Char) := fun text =>
  match text.span isDigit with
  | ([], _) => .error .malformed
  | (digits, rest) => .ok (digits, rest)

/-- The digits before the point: a zero alone, or digits that do not start with zero. -/
def readWhole : Reader (List Char) := fun text => do
  let (digits, rest) ← readDigits text
  match digits with
  | '0' :: _ :: _ => .error .malformed
  | _ => .ok (digits, rest)

def readFraction : Reader (Option (List Char))
  | '.' :: text => do
    let (digits, text) ← readDigits text
    return (some digits, text)
  | text => .ok (none, text)

def readExponent : Reader (Option Int)
  | [] => .ok (none, [])
  | mark :: text =>
    if mark = 'e' ∨ mark = 'E' then do
      let (negative, text) := Decimal.splitSign text
      let (digits, text) ← readDigits text
      let size : Int := Decimal.valueOfDigits digits
      return (some (if negative then -size else size), text)
    else .ok (none, mark :: text)

/-- A number as it is written, without a look at its size. -/
def readWritten : Reader Written := fun text => do
  let (negative, text) :=
    match text with
    | '-' :: text => (true, text)
    | text => (false, text)
  let (whole, text) ← readWhole text
  let (fraction, text) ← readFraction text
  let (exponent, text) ← readExponent text
  return ({ negative, whole, fraction, exponent }, text)

/-- Takes digits into a number as long as it fits in 64 bits, and leaves the others. -/
def takeDigits : Nat → List Char → Nat × List Char
  | value, [] => (value, [])
  | value, c :: digits =>
    let next := 10 * value + Decimal.digitValue c
    if next < 0x10000000000000000 then takeDigits next digits else (value, c :: digits)

/-- A power of ten, as the nearest double. -/
def powerOfTen (n : Nat) : Float := Decimal.toFloat { negative := false, significand := 1, exponent := n }

/-- A double times a power of ten, with one rounding for each step of at most 308 places. A result
beyond the range of doubles is an error. -/
def scale (x : Float) (exponent : Int) : Except JsonError Float :=
  if 308 < exponent then if x == 0 then .ok x else .error .malformed
  else if 0 ≤ exponent then
    let product := x * powerOfTen exponent.toNat
    if product.isInf then .error .malformed else .ok product
  else if -308 ≤ exponent then .ok (x / powerOfTen (-exponent).toNat)
  else if x == 0 then .ok x
  else scale (x / powerOfTen 308) (exponent + 308)
termination_by (-exponent).toNat

/-- The double of a number: its first digits, as many as fit in 64 bits, scaled by a power of ten. The
digits that do not fit count as zeros before the point and as nothing behind it. -/
def Written.toFloat (w : Written) : Except JsonError Float := do
  let (whole, wholeLeft) := takeDigits 0 w.whole
  let fraction := w.fraction.getD []
  let (significand, fractionLeft) := takeDigits whole fraction
  let places : Int := wholeLeft.length - (fraction.length - fractionLeft.length)
  let size ← scale (Binary64.ofInt significand) (places + w.exponent.getD 0)
  return if w.negative then -size else size

/-- A whole number in the range of 64 bit words, signed or not, is kept as it is. All other numbers
become doubles, and so does the negative zero. -/
def Written.value (w : Written) : Except JsonError JsonNumber :=
  let size := Decimal.valueOfDigits w.whole
  let limit := if w.negative then 0x8000000000000001 else 0x10000000000000000
  if w.fraction.isNone && w.exponent.isNone && decide (size < limit) && !(w.negative && size == 0)
  then
    .ok (.whole (if w.negative then -(size : Int) else size))
  else w.toFloat.map .real

def readNumber : Reader JsonNumber := fun text => do
  let (written, text) ← readWritten text
  let value ← written.value
  return (value, text)

/-- A number starts with a minus or a digit. -/
def startsNumber (c : Char) : Bool := c == '-' || isDigit c

/-! ## Containers -/

/-- Goes to the next item of a container: `none` at its end, else the text in front of the item.
All items but the first follow a comma. -/
def nextItem? (close : Char) (first : Bool) (text : List Char) :
    Except JsonError (Option (List Char)) :=
  match skipSpace text with
  | [] => .error .malformed
  | c :: text =>
    if c = close then .ok none
    else if first then .ok (some (c :: text))
    else if c = ',' then
      match skipSpace text with
      | [] => .error .malformed
      | d :: text => if d = close then .error .malformed else .ok (some (d :: text))
    else .error .malformed

/-- Takes the closing character of a container. -/
def readClose (close : Char) : Reader Unit := fun text => readWord [close] (skipSpace text)

/-- The items of a list after its bracket, and the bracket that closes it. -/
def readItems {α : Type} (item : Reader α) : Nat → List α → Reader (List α)
  | 0, _, _ => .error .malformed
  | fuel + 1, done, text => do
    match ← nextItem? ']' done.isEmpty text with
    | none =>
      let ((), text) ← readClose ']' text
      return (done.reverse, text)
    | some text =>
      let (value, text) ← item text
      readItems item fuel (value :: done) text

/-- The items of a list after its bracket, and the bracket that closes it. -/
def readList {α : Type} (item : Reader α) : Reader (List α) := fun text =>
  readItems item (text.length + 1) [] text

/-- The name of a member, when its quote is the next character. -/
def readName : Reader String
  | '"' :: text => readString text
  | _ => .error .malformed

/-- Takes the colon after a name. -/
def readColon : Reader Unit := fun text => readWord [':'] (skipSpace text)

/-- The members of an object after its brace, and the brace that closes it. -/
def readMembers (item : Reader Json) :
    Nat → Bool → List (String × Json) → Reader (List (String × Json))
  | 0, _, _, _ => .error .malformed
  | fuel + 1, first, done, text => do
    match ← nextItem? '\x7d' first text with
    | none =>
      let ((), text) ← readClose '\x7d' text
      return (done, text)
    | some text =>
      let (name, text) ← readName text
      let ((), text) ← readColon text
      let (value, text) ← item text
      readMembers item fuel false (setMember name value done) text

/-- A value that is no container. -/
def readScalar : Reader Json
  | [] => .error .malformed
  | c :: text =>
    if c = '"' then do
      let (value, text) ← readString text
      return (.string value, text)
    else if startsNumber c then do
      let (value, text) ← readNumber (c :: text)
      return (.number value, text)
    else if c = 'n' then do
      let ((), text) ← readWord ['u', 'l', 'l'] text
      return (.null, text)
    else if c = 't' then do
      let ((), text) ← readWord ['r', 'u', 'e'] text
      return (.bool true, text)
    else if c = 'f' then do
      let ((), text) ← readWord ['a', 'l', 's', 'e'] text
      return (.bool false, text)
    else .error .malformed

/-- Any value, with containers nested at most so many levels deep. -/
def readValue : Nat → Reader Json
  | 0, text => readScalar (skipSpace text)
  | levels + 1, text =>
    match skipSpace text with
    | '[' :: text => do
      let (elements, text) ← readList (readValue levels) text
      return (.array elements, text)
    | '\x7b' :: text => do
      let (members, text) ← readMembers (readValue levels) (text.length + 1) true [] text
      return (.object members, text)
    | text => readScalar text

/-- Reads the whole text: nothing but space may follow the value. -/
def readAll {α : Type} (item : Reader α) (text : String) : Except JsonError α := do
  let (value, rest) ← item text.toList
  match skipSpace rest with
  | [] => return value
  | _ :: _ => .error .malformed

/-- The value that the text holds. -/
def parse (text : String) : Except JsonError Json := readAll (readValue mostLevels) text

/-! ## Skipping -/

/-- Skips a value that is no container. -/
def skipScalar : Reader Unit
  | [] => .error .malformed
  | c :: text =>
    if c = '"' then skipChars (text.length + 1) text
    else if startsNumber c then do
      let (_, text) ← readWritten (c :: text)
      return ((), text)
    else if c = 'n' then readWord ['u', 'l', 'l'] text
    else if c = 't' then readWord ['r', 'u', 'e'] text
    else if c = 'f' then readWord ['a', 'l', 's', 'e'] text
    else .error .malformed

/-- Takes a member's name and its colon. -/
def skipName (text : List Char) : Except JsonError (Unit × List Char) := do
  match text with
  | '"' :: text =>
    let ((), text) ← skipChars (text.length + 1) text
    readColon text
  | _ => .error .malformed

mutual

/-- Skips one value, then goes on in the containers that are open around it, innermost first; each
is given by its closing character. -/
def skipInside : Nat → List Char → Reader Unit
  | 0, _, _ => .error .malformed
  | fuel + 1, opened, text =>
    match skipSpace text with
    | '[' :: text => skipNext fuel (']' :: opened) true text
    | '\x7b' :: text => skipNext fuel ('\x7d' :: opened) true text
    | text => do
      let ((), text) ← skipScalar text
      skipNext fuel opened false text

/-- Skips what is left of the open containers. -/
def skipNext : Nat → List Char → Bool → Reader Unit
  | 0, _, _, _ => .error .malformed
  | _ + 1, [], _, text => .ok ((), text)
  | fuel + 1, close :: opened, first, text => do
    match ← nextItem? close first text with
    | none =>
      let ((), text) ← readClose close text
      skipNext fuel opened false text
    | some text =>
      if close = '\x7d' then
        let ((), text) ← skipName text
        skipInside fuel (close :: opened) text
      else skipInside fuel (close :: opened) text

end

/-- Skips one value of any depth. -/
def skipValue : Reader Unit := fun text => skipInside (2 * text.length + 2) [] text

end FlowPath.Json
