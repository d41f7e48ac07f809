import FlowPath.Json.Basic
import FlowPath.Text.Basic
import Mathlib.Data.List.Forall2

/-!
# The grammar of JSON

How JSON is written, apart from how it is read. There may be space around every value, name and colon. A character of
a string stands for itself or is escaped, by a letter or by the numbers of its UTF-16 units (`SpellsChar`). A container
has items with commas between them (`Container`), where a relation says how an item is written; so lists of values,
members of objects and trees of statements share the same rules.

`IsValue` are the texts of any value, without a look at what the value is: an escape may stand for half of a character,
and a number may be of any size. `Spells` are the texts of a given value, and on them rests what is asked of a reader
and of a writer of JSON, whichever they are (`ReadsLists`, `WritesTexts`).
-/

namespace FlowPath.Json

open FlowPath.Text (isDigit)

/-- Blanks, tabs and ends of lines. -/
def Space (text : List Char) : Prop := ∀ c ∈ text, c ∈ [' ', '\n', '\t', '\r']

/-- A text with space around it. -/
inductive Spaced (P : List Char → Prop) : List Char → Prop where
  | around {before text after : List Char} (hbefore : Space before) (htext : P text) (hafter : Space after) :
    Spaced P (before ++ (text ++ after))

/-! ## Strings -/

/-- The hexadecimal digits with their values. -/
def hexDigits : List (Char × Nat) :=
  "0123456789abcdef".toList.zipIdx ++ "0123456789ABCDEF".toList.zipIdx

/-- An escape with the number of a UTF-16 unit. -/
inductive SpellsUnit : Nat → List Char → Prop where
  | digits {a b c d : Char} {i j k l : Nat} (ha : (a, i) ∈ hexDigits) (hb : (b, j) ∈ hexDigits)
    (hc : (c, k) ∈ hexDigits) (hd : (d, l) ∈ hexDigits) :
    SpellsUnit (i * 0x1000 + j * 0x100 + k * 0x10 + l) ['\\', 'u', a, b, c, d]

/-- The UTF-16 units of a character. -/
def units (c : Char) : List Nat :=
  if c.toNat < 0x10000 then [c.toNat]
  else [0xD800 + (c.toNat - 0x10000) / 0x400, 0xDC00 + (c.toNat - 0x10000) % 0x400]

/-- The escapes by a letter, with the characters that they stand for. -/
def letterEscapes : List (Char × Char) :=
  [('"', '"'), ('\\', '\\'), ('/', '/'), ('b', '\x08'), ('f', '\x0c'), ('n', '\n'), ('r', '\r'), ('t', '\t')]

/-- The ways to write a character in a string. -/
inductive SpellsChar : Char → List Char → Prop where
  | itself {c : Char} (hquote : c ≠ '"') (hbackslash : c ≠ '\\') (hcontrol : 0x20 ≤ c.toNat) :
    SpellsChar c [c]
  | letter {letter c : Char} (h : (letter, c) ∈ letterEscapes) : SpellsChar c ['\\', letter]
  | units {c : Char} {escapes : List (List Char)} (h : List.Forall₂ SpellsUnit (units c) escapes) :
    SpellsChar c escapes.flatten

/-- The ways to write some characters in a string. -/
inductive SpellsChars : List Char → List Char → Prop where
  | nil : SpellsChars [] []
  | cons {c : Char} {chars text rest : List Char} (hfirst : SpellsChar c text) (hrest : SpellsChars chars rest) :
    SpellsChars (c :: chars) (text ++ rest)

/-- The ways to write a string. -/
inductive SpellsString : String → List Char → Prop where
  | quoted {value : String} {text : List Char} (h : SpellsChars value.toList text) :
    SpellsString value ('"' :: (text ++ ['"']))

/-- What can stand between quotes, a single unit of a character included. -/
inductive IsQuotable : List Char → Prop where
  | nil : IsQuotable []
  | itself {c : Char} {rest : List Char} (hquote : c ≠ '"') (hbackslash : c ≠ '\\') (hcontrol : 0x20 ≤ c.toNat)
    (hrest : IsQuotable rest) : IsQuotable (c :: rest)
  | letter {letter c : Char} {rest : List Char} (h : (letter, c) ∈ letterEscapes) (hrest : IsQuotable rest) :
    IsQuotable ('\\' :: letter :: rest)
  | unit {unit : Nat} {text rest : List Char} (h : SpellsUnit unit text) (hrest : IsQuotable rest) :
    IsQuotable (text ++ rest)

inductive IsString : List Char → Prop where
  | quoted {text : List Char} (h : IsQuotable text) : IsString ('"' :: (text ++ ['"']))

/-! ## Numbers -/

def IsDigits (text : List Char) : Prop := text ≠ [] ∧ ∀ c ∈ text, isDigit c = true

/-- Digits that do not start with a zero, unless there is nothing else. -/
def IsWhole (text : List Char) : Prop := IsDigits text ∧ (text.head? = some '0' → text = ['0'])

inductive IsFraction : List Char → Prop where
  | none : IsFraction []
  | point {digits : List Char} (h : IsDigits digits) : IsFraction ('.' :: digits)

inductive IsExponent : List Char → Prop where
  | none : IsExponent []
  | mark {mark : Char} {sign digits : List Char} (hmark : mark = 'e' ∨ mark = 'E')
    (hsign : sign ∈ [[], ['+'], ['-']]) (hdigits : IsDigits digits) : IsExponent (mark :: (sign ++ digits))

inductive IsNumber : List Char → Prop where
  | parts {sign whole fraction exponent : List Char} (hsign : sign ∈ [[], ['-']]) (hwhole : IsWhole whole)
    (hfraction : IsFraction fraction) (hexponent : IsExponent exponent) :
    IsNumber (sign ++ (whole ++ (fraction ++ exponent)))

/-! ## Containers -/

/-- Items with commas between them, each with space around it. -/
inductive Items {α : Type} (P : α → List Char → Prop) : List α → List Char → Prop where
  | last {item : α} {before text after : List Char} (hbefore : Space before) (hitem : P item text)
    (hafter : Space after) : Items P [item] (before ++ (text ++ after))
  | cons {item : α} {items : List α} {before text after more : List Char} (hbefore : Space before)
    (hitem : P item text) (hafter : Space after) (hmore : Items P items more) :
    Items P (item :: items) (before ++ (text ++ (after ++ ',' :: more)))

/-- The items between the two characters. -/
inductive Container {α : Type} (P : α → List Char → Prop) (first last : Char) : List α → List Char → Prop where
  | empty {space : List Char} (h : Space space) : Container P first last [] (first :: (space ++ [last]))
  | items {items : List α} {text : List Char} (h : Items P items text) :
    Container P first last items (first :: (text ++ [last]))

/-- A name and a value with a colon between them. -/
inductive Member (N V : List Char → Prop) : List Char → Prop where
  | colon {name before after value : List Char} (hname : N name) (hbefore : Space before) (hafter : Space after)
    (hvalue : V value) : Member N V (name ++ (before ++ ':' :: (after ++ value)))

/-- The texts of values. -/
inductive IsValue : List Char → Prop where
  | word {word : String} (h : word ∈ ["null", "true", "false"]) : IsValue word.toList
  | number {text : List Char} (h : IsNumber text) : IsValue text
  | string {text : List Char} (h : IsString text) : IsValue text
  | array {elements : List Unit} {text : List Char} (h : Container (fun _ => IsValue) '[' ']' elements text) :
    IsValue text
  | object {members : List Unit} {text : List Char}
    (h : Container (fun _ => Member IsString IsValue) '\x7b' '\x7d' members text) : IsValue text

/-! ## The texts of a value -/

/-- The sign of a whole number as it is written. -/
def signText (n : Int) : List Char := if n < 0 then ['-'] else []

/-- A member of an object, where `P` says how values are written. -/
inductive SpellsMember (P : Json → List Char → Prop) : String × Json → List Char → Prop where
  | colon {name : String} {value : Json} {label before after text : List Char} (hname : SpellsString name label)
    (hbefore : Space before) (hafter : Space after) (hvalue : P value text) :
    SpellsMember P (name, value) (label ++ (before ++ ':' :: (after ++ text)))

/-- The ways to write a value. A whole number is its numeral; of other numbers only the form is laid down, since what
they are read as is a matter of rounding. -/
inductive Spells : Json → List Char → Prop where
  | null : Spells .null "null".toList
  | bool {value : Bool} : Spells (.bool value) (if value then "true" else "false").toList
  | whole {n : Int} : Spells (.number (.whole n)) (signText n ++ Nat.toDigits 10 n.natAbs)
  | real {x : Float} {text : List Char} (h : IsNumber text) : Spells (.number (.real x)) text
  | string {value : String} {text : List Char} (h : SpellsString value text) : Spells (.string value) text
  | array {elements : List Json} {text : List Char} (h : Container Spells '[' ']' elements text) :
    Spells (.array elements) text
  | object {members : List (String × Json)} {text : List Char}
    (h : Container (SpellsMember Spells) '\x7b' '\x7d' members text) : Spells (.object members) text

/-- The texts that hold the value and nothing else. -/
def IsText (json : Json) (text : String) : Prop := Spaced (Spells json) text.toList

mutual

/-- How many containers stand inside each other. -/
def nesting : Json → Nat
  | .array elements => nestingAll elements + 1
  | .object members => nestingMembers members + 1
  | .null | .bool _ | .number _ | .string _ => 0

def nestingAll : List Json → Nat
  | [] => 0
  | element :: rest => max (nesting element) (nestingAll rest)

def nestingMembers : List (String × Json) → Nat
  | [] => 0
  | (_, value) :: rest => max (nesting value) (nestingMembers rest)

end

/-- The value has only one reading: all numbers are whole and fit in 64 bits, and no object has two members of the
same name. -/
inductive Exact : Json → Prop where
  | null : Exact .null
  | bool {value : Bool} : Exact (.bool value)
  | whole {n : Int} (hleast : -0x8000000000000000 ≤ n) (hmost : n < 0x10000000000000000) :
    Exact (.number (.whole n))
  | string {value : String} : Exact (.string value)
  | array {elements : List Json} (h : ∀ element ∈ elements, Exact element) : Exact (.array elements)
  | object {members : List (String × Json)} (hnames : (members.map Prod.fst).Nodup)
    (h : ∀ member ∈ members, Exact member.2) : Exact (.object members)

/-! ## Readers and writers -/

/-- The reader takes the elements of a list off each of its texts, if at most 127 containers stand inside each
other. -/
def ReadsLists (read : String → Except JsonError (List Json)) : Prop :=
  ∀ (elements : List Json) (text : String), (Json.array elements).Exact → (Json.array elements).nesting ≤ 127 →
    IsText (.array elements) text → read text = .ok elements

/-- The writer gives a text of the value. -/
def WritesTexts (write : Json → String) : Prop := ∀ json : Json, json.Exact → IsText json (write json)

end FlowPath.Json
