import FlowPath.Graph.Numbering

/-!
# Wiring

The edges of a graph. Wiring a statement gives the edges inside it and its exits, the places from
where control goes on to whatever follows. In a sequence the exits of a statement lead to the next
one. A branch that is empty leaves from the conditional itself. The exits of a loop's body lead back
to the loop, and the loop is left when its condition fails. A return leads to the terminal and, for
what follows it in the text, also on.
-/

namespace FlowPath.Graph

/-- How control leaves a node. -/
inductive Way where
  | straight
  | whenTrue
  | whenFalse
deriving DecidableEq, Repr

def Way.label : Way → String
  | .straight => ""
  | .whenTrue => "T"
  | .whenFalse => "F"

/-- A place from where control goes on. -/
structure Exit where
  node : Nat
  way : Way
deriving DecidableEq, Repr

structure Wiring where
  exits : List Exit := []
  edges : List Edge := []
deriving DecidableEq, Repr

/-- A statement that is wired inside. -/
structure Wired where
  id : Nat
  role : Option Statement.Role
  wiring : Wiring
deriving DecidableEq, Repr

/-- The edge that leaves a node in some way. -/
def edgeTo (source : Nat) (way : Way) (target : Nat) : Edge :=
  { source, target := .node target, label := some way.label }

/-- The edge from an exit to the node that follows. -/
def Exit.edgeTo (exit : Exit) (target : Nat) : Edge := Graph.edgeTo exit.node exit.way target

/-- What an edge says that leads back to its loop. -/
def backLabel (way : Way) : String := way.label ++ "\nwhile"

/-- The edge from an exit of a loop's body back to the loop. -/
def Exit.backTo (exit : Exit) (loop : Nat) : Edge :=
  { source := exit.node, target := .node loop, label := some (backLabel exit.way) }

/-- Wires a sequence. -/
def wireSequence : List Wired → Wiring
  | [] => {}
  | [last] => last.wiring
  | first :: next :: rest =>
    let others := wireSequence (next :: rest)
    { exits := others.exits
      edges := first.wiring.edges ++ first.wiring.exits.map (·.edgeTo next.id) ++ others.edges }

/-- The edge from a branching node into a group of its children. -/
def entryEdge (id : Nat) (way : Way) (group : List Wired) : List Edge :=
  match group with
  | [] => []
  | first :: _ => [edgeTo id way first.id]

/-- A branch of a node: its children in sequence, or if there are none just the way out. -/
def wireBranch (id : Nat) (way : Way) (group : List Wired) : Wiring :=
  match group with
  | [] => { exits := [{ node := id, way }] }
  | first :: rest => wireSequence (first :: rest)

def wireConditional (id : Nat) (children : List Wired) : Wiring :=
  let consequent := children.filter fun child => child.role ≠ some .alternate
  let alternate := children.filter fun child => child.role = some .alternate
  let whenTrue := wireBranch id .whenTrue consequent
  let whenFalse := wireBranch id .whenFalse alternate
  { exits := whenTrue.exits ++ whenFalse.exits
    edges :=
      entryEdge id .whenTrue consequent ++ entryEdge id .whenFalse alternate ++
        whenTrue.edges ++ whenFalse.edges }

def wireLoop (id : Nat) (children : List Wired) : Wiring :=
  let body := wireBranch id .whenTrue children
  { exits := [{ node := id, way := .whenFalse }]
    edges := entryEdge id .whenTrue children ++ body.edges ++ body.exits.map (·.backTo id) }

mutual

/-- Wires a statement inside. -/
def wire : Numbered → Wired
  | ⟨id, flow, role, children⟩ =>
    let wiring :=
      match flow with
      | .block => { exits := [{ node := id, way := .straight }] }
      | .returning =>
        { exits := [{ node := id, way := .straight }]
          edges := [{ source := id, target := .terminal, label := none }] }
      | .conditional => wireConditional id (wireAll children)
      | .loop => wireLoop id (wireAll children)
    { id, role, wiring }

def wireAll : List Numbered → List Wired
  | [] => []
  | node :: rest => wire node :: wireAll rest

end

/-- The edges and exits of a numbered sequence. -/
def wiringOf (nodes : List Numbered) : Wiring := wireSequence (wireAll nodes)

/-- The control-flow graph of a function. -/
def ofFunction (function : Statement) : Graph :=
  let (numbered, draft) := numberAll function.children {}
  draft.finish (wiringOf numbered).edges

end FlowPath.Graph
