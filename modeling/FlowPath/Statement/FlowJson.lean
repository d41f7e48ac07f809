import FlowPath.Json.Record
import FlowPath.Statement.Basic

/-!
# Statement trees in JSON

A statement comes as a record of the fields `type`, `subType`, `name`, `key` and `body`. The first
two tell the kind, `name` is the text, `key` the role and `body` the children. No statement is marked.
What takes records off a text is a parameter (`ofText`); the reader of this library is `FlowRecord.parse`.
A record can also be taken from a JSON value.
-/

namespace FlowPath

/-- The fields of a statement, as far as they are there. -/
structure FlowRecord where
  type : Option String := none
  subType : Option String := none
  name : Option String := none
  key : Option String := none
  body : Option (List FlowRecord) := none

namespace Statement

/-- The kind of a statement from its type and the type's subtype. -/
def Kind.ofTypes (type : String) (subType : Option String) : Kind :=
  if type = "Function" ∧ subType = some "FunctionDeclaration" then .function
  else if type = "VariableDeclarator" ∨ type = "AssignmentExpression" then .assignment
  else if type = "Conditional" ∧ subType = some "IfStatement" then .conditional
  else if type = "Loop" ∧ subType = some "WhileStatement" then .loop
  else if type = "ReturnStatement" then .returning
  else .other

end Statement

namespace FlowRecord

open Statement (Kind Role)
open Json (Reader RecordField)

mutual

/-- The tree of a record. -/
def statement : FlowRecord → Statement
  | ⟨type, subType, name, key, body⟩ =>
    { kind := Kind.ofTypes (type.getD "") subType
      text := name.getD ""
      role := key.bind Role.ofLabel?
      onPath := false
      children := statementBody body }

def statementBody : Option (List FlowRecord) → List Statement
  | none => []
  | some records => statements records

def statements : List FlowRecord → List Statement
  | [] => []
  | record :: rest => statement record :: statements rest

end

/-! ## From a text -/

/-- A field that holds a text. -/
def textField (name : String) (set : FlowRecord → Option String → FlowRecord) :
    RecordField FlowRecord where
  name
  read record text := do
    let (value, text) ← Json.readOptional Json.readText text
    return (set record value, text)

/-- The fields in their order, where `body` reads the children. -/
def fields (body : Reader (List FlowRecord)) : List (RecordField FlowRecord) :=
  [textField "type" fun record value => { record with type := value },
   textField "subType" fun record value => { record with subType := value },
   textField "name" fun record value => { record with name := value },
   textField "key" fun record value => { record with key := value },
   { name := "body"
     read := fun record text => do
       let (value, text) ← Json.readOptional body text
       return ({ record with body := value }, text) }]

/-- A record with so many levels of containers left. Each level of the tree takes two of them, the
record and the list of its children. -/
def read : Nat → Reader FlowRecord
  | 0 => Json.refuseRecord
  | 1 => Json.readRecord (fields Json.refuseList) {}
  | levels + 2 => Json.readRecord (fields (Json.readListOf (read levels))) {}

/-- The record that a text holds. -/
def parse (text : String) : Except JsonError FlowRecord := Json.readAll (read Json.mostLevels) text

/-! ## From a value -/

/-- A text, or `null` for none. -/
def textOfJson : Json → Except JsonError (Option String)
  | .null => .ok none
  | .string value => .ok (some value)
  | _ => .error .mismatch

mutual

/-- The record that a value holds. -/
def ofJson : Json → Except JsonError FlowRecord
  | .object members => ofMembers members {}
  | .array elements => ofElements 0 elements {}
  | _ => .error .mismatch

/-- The fields given by name. -/
def ofMembers : List (String × Json) → FlowRecord → Except JsonError FlowRecord
  | [], record => .ok record
  | (name, value) :: rest, record =>
    if name = "body" then do
      let children ← bodyOfJson value
      ofMembers rest { record with body := children }
    else if name = "type" then do
      ofMembers rest { record with type := ← textOfJson value }
    else if name = "subType" then do
      ofMembers rest { record with subType := ← textOfJson value }
    else if name = "name" then do
      ofMembers rest { record with name := ← textOfJson value }
    else if name = "key" then do
      ofMembers rest { record with key := ← textOfJson value }
    else ofMembers rest record

/-- The fields given in their order, from the given one on. -/
def ofElements : Nat → List Json → FlowRecord → Except JsonError FlowRecord
  | _, [], record => .ok record
  | 0, value :: rest, record => do ofElements 1 rest { record with type := ← textOfJson value }
  | 1, value :: rest, record => do ofElements 2 rest { record with subType := ← textOfJson value }
  | 2, value :: rest, record => do ofElements 3 rest { record with name := ← textOfJson value }
  | 3, value :: rest, record => do ofElements 4 rest { record with key := ← textOfJson value }
  | 4, value :: rest, record => do
    let children ← bodyOfJson value
    ofElements 5 rest { record with body := children }
  | _ + 5, _ :: _, _ => .error .mismatch

/-- The children, or `null` for none. -/
def bodyOfJson : Json → Except JsonError (Option (List FlowRecord))
  | .null => .ok none
  | .array elements => (ofJsonAll elements).map some
  | _ => .error .mismatch

def ofJsonAll : List Json → Except JsonError (List FlowRecord)
  | [] => .ok []
  | value :: rest => do
    let first ← ofJson value
    let others ← ofJsonAll rest
    return first :: others

end

end FlowRecord

namespace Statement

/-- The tree that a text holds, where `read` takes records off texts. -/
def ofText (read : String → Except JsonError FlowRecord) (text : String) :
    Except JsonError Statement :=
  (read text).map FlowRecord.statement

/-- The tree that a text holds, with the reader of this library. -/
def parseFlow : String → Except JsonError Statement := ofText FlowRecord.parse

/-- The tree that a value holds. -/
def ofJson (json : Json) : Except JsonError Statement :=
  (FlowRecord.ofJson json).map FlowRecord.statement

end Statement

end FlowPath
