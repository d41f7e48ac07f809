import FlowPath.Graph.Basic
import FlowPath.Statement.Basic

/-!
# Numbering

The nodes of a graph are numbered in the order of the text: a conditional or a loop first, then the
statements in it. A draft collects the nodes, and the terminal once a return comes up. What is
needed to find the edges stays behind as a tree of numbers.
-/

namespace FlowPath.Graph

/-- How a statement passes control on. -/
inductive FlowClass where
  | block
  | conditional
  | loop
  | returning
deriving DecidableEq, Repr

/-- A statement with its number. Only conditionals and loops have children. -/
structure Numbered where
  id : Nat
  flow : FlowClass
  role : Option Statement.Role
  children : List Numbered

def FlowClass.ofKind : Statement.Kind → FlowClass
  | .conditional => .conditional
  | .loop => .loop
  | .returning => .returning
  | .function | .assignment | .other => .block

/-- The nodes so far, the terminal if there was a return, and a counter for the numbers. -/
structure Draft where
  nodes : Array Node := #[]
  terminal : Option Terminal := none
  /-- The number of the next node. -/
  nextId : Nat := 0
deriving DecidableEq, Repr

namespace Draft

/-- Gives the next number out. -/
def takeId (draft : Draft) : Nat × Draft := (draft.nextId, { draft with nextId := draft.nextId + 1 })

def addNode (draft : Draft) (node : Node) : Draft :=
  { draft with nodes := draft.nodes.push node }

/-- The first return names the terminal, and every return on the path puts it on the path. -/
def addReturn (draft : Draft) (step : Nat) (label : String) (onPath : Bool) : Draft :=
  match draft.terminal with
  | some terminal =>
    { draft with terminal := some { terminal with onPath := terminal.onPath || onPath } }
  | none => { draft with terminal := some { step, label, onPath } }

/-- The graph of the draft with the given edges. -/
def finish (draft : Draft) (edges : List Edge) : Graph :=
  { nodes := draft.nodes.toList, terminal := draft.terminal, edges }

end Draft

mutual

/-- Numbers a statement and what is in it. -/
def number : Statement → Draft → Numbered × Draft
  | ⟨kind, text, role, onPath, children⟩, draft =>
    let (id, draft) := draft.takeId
    let step := draft.nextId
    match FlowClass.ofKind kind with
    | .returning =>
      let draft := draft.addNode { id, step := none, label := "", shape := .circle, onPath }
      ({ id, flow := .returning, role, children := [] }, draft.addReturn step text onPath)
    | .block =>
      let draft := draft.addNode { id, step := some step, label := text, shape := .box, onPath }
      ({ id, flow := .block, role, children := [] }, draft)
    | flow =>
      let draft := draft.addNode { id, step := some step, label := text, shape := .diamond, onPath }
      let (children, draft) := numberAll children draft
      ({ id, flow, role, children }, draft)

/-- Numbers the statements of a sequence. -/
def numberAll : List Statement → Draft → List Numbered × Draft
  | [], draft => ([], draft)
  | s :: rest, draft =>
    let (first, draft) := number s draft
    let (others, draft) := numberAll rest draft
    (first :: others, draft)

end

namespace Numbered

mutual

/-- The numbered statement and all below it, each with its depth. -/
def outline (depth : Nat) : Numbered → List (Nat × Numbered)
  | ⟨id, flow, role, children⟩ =>
    (depth, ⟨id, flow, role, children⟩) :: outlineAll (depth + 1) children

def outlineAll (depth : Nat) : List Numbered → List (Nat × Numbered)
  | [] => []
  | node :: rest => outline depth node ++ outlineAll depth rest

end

end Numbered

end FlowPath.Graph
