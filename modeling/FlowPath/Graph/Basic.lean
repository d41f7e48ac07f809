/-!
# Control-flow graphs

The graph of a function has a node a statement and an edge wherever control can go on. All returns
lead to one terminal.
-/

namespace FlowPath

inductive Graph.Shape where
  | box
  | diamond
  | circle
deriving DecidableEq, Repr

structure Graph.Node where
  id : Nat
  /-- The place in the order of the text, from one on; returns have none. -/
  step : Option Nat
  label : String
  shape : Graph.Shape
  onPath : Bool
deriving DecidableEq, Repr

/-- The box that all returns lead to. -/
structure Graph.Terminal where
  step : Nat
  label : String
  onPath : Bool
deriving DecidableEq, Repr

inductive Graph.Target where
  | node (id : Nat)
  | terminal
deriving DecidableEq, Repr

structure Graph.Edge where
  source : Nat
  target : Graph.Target
  /-- An empty label and no label at all are two things. -/
  label : Option String
deriving DecidableEq, Repr

structure Graph where
  nodes : List Graph.Node := []
  terminal : Option Graph.Terminal := none
  edges : List Graph.Edge := []
deriving DecidableEq, Repr

namespace Graph

def Shape.label : Shape → String
  | .box => "box"
  | .diamond => "diamond"
  | .circle => "circle"

def node? (graph : Graph) (id : Nat) : Option Node := graph.nodes.find? fun node => node.id = id

def edge? (graph : Graph) (source : Nat) (target : Target) : Option Edge :=
  graph.edges.find? fun edge => edge.source = source ∧ edge.target = target

def incoming (graph : Graph) (target : Target) : List Edge :=
  graph.edges.filter fun edge => edge.target = target

def outgoing (graph : Graph) (source : Nat) : List Edge :=
  graph.edges.filter fun edge => edge.source = source

end Graph

end FlowPath
