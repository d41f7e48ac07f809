import FlowPath.Expr.Eval

/-!
# Tables of nodes

An expression laid out as a table: one row a node, which refers to the nodes below it by their row
numbers. Rows are only ever added at the end. A row may refer to rows that are not there, which
count as missing. `Expr.addTo` lays a tree out with every node after the nodes below it, and
`Table.unfold` reads the tree at a row back.
-/

namespace FlowPath

/-- A node whose children are given by row number. -/
inductive Entry where
  | number (value : Float)
  | string (value : String)
  | boolean (value : Bool)
  | identifier (name : String)
  | array (elements : List Nat)
  | element (object index : Nat)
  | property (object : Nat) (name : String)
  | unary (operator : Token.Kind) (operand : Nat)
  | binary (operator : Token.Kind) (left right : Nat)
  | conditional (condition whenTrue whenFalse : Nat)
  | assign (operator : Token.Kind) (target value : Nat)

def Entry.children : Entry → List Nat
  | .number _ | .string _ | .boolean _ | .identifier _ => []
  | .array elements => elements
  | .element object index => [object, index]
  | .property object _ => [object]
  | .unary _ operand => [operand]
  | .binary _ left right => [left, right]
  | .conditional condition whenTrue whenFalse => [condition, whenTrue, whenFalse]
  | .assign _ target value => [target, value]

/-- An entry, where it stands in the text, and the height of its tree. -/
structure Row where
  entry : Entry
  place : Place

structure Table where
  rows : Array Row := #[]

namespace Table

def size (table : Table) : Nat := table.rows.size

def entry? (table : Table) (index : Nat) : Option Entry := table.rows[index]?.map (·.entry)

/-- The stretch of text of a row; a missing row has an empty one. -/
def span (table : Table) (index : Nat) : Span :=
  (table.rows[index]?.map (·.place.span)).getD {}

/-- The height of the tree at a row; a missing row has none. -/
def height (table : Table) (index : Nat) : Nat :=
  (table.rows[index]?.map (·.place.height)).getD 0

/-- Adds a row at the end, one higher than the rows that it refers to. -/
def push (table : Table) (entry : Entry) (span : Span) : Table :=
  let height := 1 + Expr.highest (entry.children.map table.height)
  { rows := table.rows.push { entry, place := { span, height } } }

/-- Adds a row at the end and gives its number. -/
def add (table : Table) (entry : Entry) (span : Span) : Table × Nat :=
  let row := table.size
  (table.push entry span, row)

/-- The value of an entry, from the values of the rows that it refers to. -/
def evalEntry (bindings : Bindings) (value : Nat → Value) : Entry → Value
  | .number x => .number x
  | .string text => .string text
  | .boolean truth => .boolean truth
  | .identifier name => (bindings name).getD .undefined
  | .array elements => .array (elements.map value)
  | .element object index => Value.element (value object) (value index)
  | .property object name => Value.property (value object) name
  | .unary operator operand => Value.applyUnary operator (value operand)
  | .binary operator left right =>
    let first := value left
    match operator, first.isTrue with
    | .andAnd, false => first
    | .orOr, true => first
    | _, _ => Value.applyBinary operator first (value right)
  | .conditional condition whenTrue whenFalse =>
    if (value condition).isTrue then value whenTrue else value whenFalse
  | .assign _ _ right => value right

/-- The value at a row, following references at most `fuel` deep. -/
def evalWithin (table : Table) (bindings : Bindings) : Nat → Nat → Value
  | 0, _ => .undefined
  | fuel + 1, index =>
    match table.entry? index with
    | none => .undefined
    | some entry => evalEntry bindings (evalWithin table bindings fuel) entry

/-- The value at a row. No chain of references without a cycle is longer than the table. -/
def evalAt (table : Table) (bindings : Bindings) (index : Nat) : Value :=
  table.evalWithin bindings table.size index

/-- The tree of an entry, from the trees of the rows that it refers to. -/
def treeOf (tree : Nat → Expr Unit) : Entry → Expr Unit
  | .number x => .number () x
  | .string text => .string () text
  | .boolean truth => .boolean () truth
  | .identifier name => .identifier () name
  | .array elements => .array () (elements.map tree)
  | .element object index => .element () (tree object) (tree index)
  | .property object name => .property () (tree object) name
  | .unary operator operand => .unary () operator (tree operand)
  | .binary operator left right => .binary () operator (tree left) (tree right)
  | .conditional condition whenTrue whenFalse =>
    .conditional () (tree condition) (tree whenTrue) (tree whenFalse)
  | .assign operator target value => .assign () operator (tree target) (tree value)

/-- The tree at a row, following references at most `fuel` deep. -/
def unfoldWithin (table : Table) : Nat → Nat → Expr Unit
  | 0, _ => .missing ()
  | fuel + 1, index =>
    match table.entry? index with
    | none => .missing ()
    | some entry => treeOf (unfoldWithin table fuel) entry

/-- The tree at a row. -/
def unfold (table : Table) (index : Nat) : Expr Unit := table.unfoldWithin table.size index

end Table

namespace Expr

mutual

/-- Adds the nodes of a tree to a table, each after the nodes below it, and gives the row of the
root. Nothing is added for a missing tree. -/
def addTo : Expr Place → Table → Table × Nat
  | .missing _, table => (table, table.size)
  | .number place value, table => table.add (.number value) place.span
  | .string place value, table => table.add (.string value) place.span
  | .boolean place value, table => table.add (.boolean value) place.span
  | .identifier place name, table => table.add (.identifier name) place.span
  | .array place elements, table =>
    let (table, rows) := addAllTo elements table
    table.add (.array rows) place.span
  | .element place object index, table =>
    let (table, object) := addTo object table
    let (table, index) := addTo index table
    table.add (.element object index) place.span
  | .property place object name, table =>
    let (table, object) := addTo object table
    table.add (.property object name) place.span
  | .unary place operator operand, table =>
    let (table, operand) := addTo operand table
    table.add (.unary operator operand) place.span
  | .binary place operator left right, table =>
    let (table, left) := addTo left table
    let (table, right) := addTo right table
    table.add (.binary operator left right) place.span
  | .conditional place condition whenTrue whenFalse, table =>
    let (table, condition) := addTo condition table
    let (table, whenTrue) := addTo whenTrue table
    let (table, whenFalse) := addTo whenFalse table
    table.add (.conditional condition whenTrue whenFalse) place.span
  | .assign place operator target value, table =>
    let (table, target) := addTo target table
    let (table, value) := addTo value table
    table.add (.assign operator target value) place.span

/-- Adds several trees one after the other. -/
def addAllTo : List (Expr Place) → Table → Table × List Nat
  | [], table => (table, [])
  | e :: rest, table =>
    let (table, row) := addTo e table
    let (table, rows) := addAllTo rest table
    (table, row :: rows)

end

/-- The table of a tree and the row of its root, which is the last one. -/
def table (e : Expr Place) : Table × Nat := e.addTo {}

end Expr

end FlowPath
