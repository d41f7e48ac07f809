import FlowPath.Json.Reader

/-!
# Reading records

Records of named fields, read straight off the text. A record is an object, or a list of its fields
in their order with the last ones left out. Every field may be missing or `null`, fields that the
record does not know are skipped, and a known field must not come twice. The first problem in the
order of the text decides how the reading fails.
-/

namespace FlowPath.Json

/-- Refuses a value of another type. A scalar is read first, so a malformed one is called so. -/
def refuse {α : Type} : Reader α
  | [] => .error .malformed
  | c :: text =>
    if c = '[' ∨ c = '\x7b' then .error .mismatch
    else do
      let _ ← readScalar (c :: text)
      .error .mismatch

/-- A list where too many containers are open already: none can be read, and other values are
refused. -/
def refuseList {α : Type} : Reader α := fun text =>
  match skipSpace text with
  | '[' :: _ => .error .malformed
  | text => refuse text

/-- A record where too many containers are open already. -/
def refuseRecord {α : Type} : Reader α := fun text =>
  match skipSpace text with
  | '[' :: _ => .error .malformed
  | '\x7b' :: _ => .error .malformed
  | text => refuse text

/-- A value, or `null` for none. -/
def readOptional {α : Type} (item : Reader α) : Reader (Option α) := fun text =>
  match skipSpace text with
  | 'n' :: text => do
    let ((), text) ← readWord ['u', 'l', 'l'] text
    return (none, text)
  | text => do
    let (value, text) ← item text
    return (some value, text)

/-- A string and nothing else. -/
def readText : Reader String := fun text =>
  match skipSpace text with
  | '"' :: text => readString text
  | text => refuse text

/-- A whole number below the limit and nothing else. -/
def readNatBelow (limit : Nat) : Reader Nat := fun text =>
  match skipSpace text with
  | [] => .error .malformed
  | c :: text =>
    if startsNumber c then do
      let (value, text) ← readNumber (c :: text)
      match value with
      | .whole (.ofNat n) => if n < limit then .ok (n, text) else .error .mismatch
      | _ => .error .mismatch
    else refuse (c :: text)

/-- A list and nothing else. -/
def readListOf {α : Type} (item : Reader α) : Reader (List α) := fun text =>
  match skipSpace text with
  | '[' :: text => readList item text
  | text => refuse text

/-- The elements of the list that the text holds. -/
def parseList (text : String) : Except JsonError (List Json) :=
  readAll (readListOf (readValue (mostLevels - 1))) text

/-- A field of a record: its name, and how its value changes the record read so far. -/
structure RecordField (σ : Type) where
  name : String
  read : σ → Reader σ

/-- The fields in their order, after the bracket. -/
def readPositional {σ : Type} : List (RecordField σ) → Bool → σ → Reader σ
  | [], _, record, text => do
    let ((), text) ← readClose ']' text
    return (record, text)
  | field :: fields, first, record, text => do
    match ← nextItem? ']' first text with
    | none =>
      let ((), text) ← readClose ']' text
      return (record, text)
    | some text =>
      let (record, text) ← field.read record text
      readPositional fields false record text

/-- The fields by name, after the brace; `seen` are the names that came before. -/
def readNamed {σ : Type} (fields : List (RecordField σ)) : Nat → Bool → List String → σ → Reader σ
  | 0, _, _, _, _ => .error .malformed
  | fuel + 1, first, seen, record, text => do
    match ← nextItem? '\x7d' first text with
    | none =>
      let ((), text) ← readClose '\x7d' text
      return (record, text)
    | some text =>
      let (name, text) ← readName text
      match fields.find? fun field => field.name == name with
      | some field =>
        if seen.contains name then .error .mismatch
        else
          let ((), text) ← readColon text
          let (record, text) ← field.read record text
          readNamed fields fuel false (name :: seen) record text
      | none =>
        let ((), text) ← readColon text
        let ((), text) ← skipValue text
        readNamed fields fuel false seen record text

/-- A record, starting from one without any fields. -/
def readRecord {σ : Type} (fields : List (RecordField σ)) (empty : σ) : Reader σ := fun text =>
  match skipSpace text with
  | '[' :: text => readPositional fields true empty text
  | '\x7b' :: text => readNamed fields (text.length + 1) true [] empty text
  | text => refuse text

end FlowPath.Json
