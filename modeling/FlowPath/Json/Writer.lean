import FlowPath.Json.Basic
import FlowPath.Number.Layout

/-!
# JSON texts

Writing a value as JSON, either without any blanks or spread over lines that are indented by two
spaces a level. In strings the quote, the backslash and the control characters are escaped, all
else stands for itself. A number that JSON cannot write, such as an infinity, becomes `null`.
-/

namespace FlowPath

/-- Reals have all their digits from a hundred thousandth up to 10^16 and an exponent beyond,
a whole real ends in `.0`, and of two equally near decimals the one with the even digit is taken. -/
def JsonNumber.layout : Layout where
  tie := .toEven
  writtenOut leading := decide (-5 ≤ leading) && decide (leading ≤ 15)
  wholeMark := ".0"

def JsonNumber.text : JsonNumber → String
  | .whole value =>
    let digits := Nat.toDigits 10 value.natAbs
    String.ofList (if value < 0 then '-' :: digits else digits)
  | .real value =>
    match Binary64.parts value with
    | .finite negative mantissa exponent =>
      if mantissa = 0 then if negative then "-0.0" else "0.0"
      else JsonNumber.layout.render negative mantissa exponent
    | _ => "null"

namespace Json

/-- How a text is spread over lines. -/
inductive Style where
  | compact
  | pretty
deriving DecidableEq, Repr

/-- The digit of a number below sixteen. -/
def hexDigit (n : Nat) : Char := Nat.digitChar n

/-- How a character is written inside a string. -/
def escapeChar (c : Char) : List Char :=
  if c = '"' then ['\\', '"']
  else if c = '\\' then ['\\', '\\']
  else if c = '\n' then ['\\', 'n']
  else if c = '\r' then ['\\', 'r']
  else if c = '\t' then ['\\', 't']
  else if c = '\x08' then ['\\', 'b']
  else if c = '\x0c' then ['\\', 'f']
  else if c.toNat < 0x20 then
    ['\\', 'u', '0', '0', hexDigit (c.toNat / 16), hexDigit (c.toNat % 16)]
  else [c]

/-- Adds the quoted text to what is written. -/
def putString (text : String) (out : String) : String :=
  (text.toList.foldl (fun out c => (escapeChar c).foldl String.push out) (out.push '"')).push '"'

/-- Starts a line at the given level. -/
def putLine (style : Style) (level : Nat) (out : String) : String :=
  match style with
  | .compact => out
  | .pretty => (List.replicate (2 * level) ' ').foldl String.push (out.push '\n')

/-- Adds the name of a member to what is written. -/
def putName (style : Style) (name : String) (out : String) : String :=
  match style with
  | .compact => (putString name out).push ':'
  | .pretty => ((putString name out).push ':').push ' '

mutual

/-- Adds a value to what is written. -/
def put (style : Style) (level : Nat) : Json → String → String
  | .null, out => out ++ "null"
  | .bool value, out => out ++ (if value then "true" else "false")
  | .number value, out => out ++ value.text
  | .string value, out => putString value out
  | .array [], out => out ++ "[]"
  | .array (first :: rest), out =>
    let out := put style (level + 1) first (putLine style (level + 1) (out.push '['))
    (putLine style level (putElements style (level + 1) rest out)).push ']'
  | .object [], out => out ++ "\x7b\x7d"
  | .object ((name, first) :: rest), out =>
    let out := putName style name (putLine style (level + 1) (out.push '\x7b'))
    let out := put style (level + 1) first out
    (putLine style level (putMembers style (level + 1) rest out)).push '\x7d'

/-- Adds the elements after the first one. -/
def putElements (style : Style) (level : Nat) : List Json → String → String
  | [], out => out
  | element :: rest, out =>
    putElements style level rest (put style level element (putLine style level (out.push ',')))

/-- Adds the members after the first one. -/
def putMembers (style : Style) (level : Nat) : List (String × Json) → String → String
  | [], out => out
  | (name, value) :: rest, out =>
    let out := putName style name (putLine style level (out.push ','))
    putMembers style level rest (put style level value out)

end

/-- The text of a value. -/
def render (style : Style) (value : Json) : String := put style 0 value ""

end Json

end FlowPath
