import FlowPath.Graph.Basic

/-!
# Graphs in DOT

A graph is written as statements of the DOT language, a line each: the nodes, the terminal last, and
then the edges. Labels stand in quotes; in them a quote and a backslash are escaped, the end of a
line is written `\n`, and carriage returns are left out. The colours are written as they are given.
-/

namespace FlowPath.Graph

/-- How nodes are drawn. -/
structure DrawOptions where
  /-- Labels start with the number of the step. -/
  stepNumbers : Bool := true
  /-- The colour of nodes on the path. -/
  onPathFill : String := "#a9d18e"
  /-- The colour of all other nodes. -/
  offPathFill : String := "#ffffff"
deriving DecidableEq, Repr

namespace Dot

/-- How a character is written inside quotes. -/
def escapeChar (c : Char) : List Char :=
  if c = '"' then ['\\', '"']
  else if c = '\\' then ['\\', '\\']
  else if c = '\n' then ['\\', 'n']
  else if c = '\r' then []
  else [c]

def escape (text : List Char) : List Char := text.flatMap escapeChar

def idText (id : Nat) : List Char := 'n' :: Nat.toDigits 10 id

def targetText : Target → List Char
  | .node id => idText id
  | .terminal => "return".toList

def edgeStatement (edge : Edge) : List Char :=
  let ends := idText edge.source ++ "->".toList ++ targetText edge.target
  match edge.label with
  | some label => ends ++ "[label=\"".toList ++ escape label.toList ++ "\"]".toList
  | none => ends ++ " []".toList

def fill (options : DrawOptions) (onPath : Bool) : String :=
  if onPath then options.onPathFill else options.offPathFill

/-- A label behind the number of its step. -/
def stepLabel (options : DrawOptions) (step : Option Nat) (label : String) : List Char :=
  match step with
  | some step =>
    if options.stepNumbers then '~' :: Nat.toDigits 10 step ++ '~' :: '\n' :: label.toList
    else label.toList
  | none => label.toList

/-- The label of a node as it is drawn. A circle has none. -/
def nodeLabel (options : DrawOptions) (node : Node) : List Char :=
  match node.shape with
  | .circle => []
  | _ => stepLabel options node.step node.label

/-- The statement of a box with its name, label, shape and colour. -/
def shapeStatement (name label : List Char) (shape : Shape) (colour : String) : List Char :=
  name ++ "[label=\"".toList ++ escape label ++ "\", shape=\"".toList ++ shape.label.toList ++
    "\" style=filled fillcolor=\"".toList ++ colour.toList ++ "\"]".toList

def nodeStatement (options : DrawOptions) (node : Node) : List Char :=
  shapeStatement (idText node.id) (nodeLabel options node) node.shape (fill options node.onPath)

def terminalStatement (options : DrawOptions) (terminal : Terminal) : List Char :=
  shapeStatement (targetText .terminal) (stepLabel options (some terminal.step) terminal.label) .box
    (fill options terminal.onPath)

/-- The statements of the nodes, the terminal last. -/
def nodeStatements (options : DrawOptions) (graph : Graph) : List (List Char) :=
  graph.nodes.map (nodeStatement options) ++
    (graph.terminal.map (terminalStatement options)).toList

def edgeStatements (graph : Graph) : List (List Char) := graph.edges.map edgeStatement

/-- A text with each statement on a line. -/
def unlines (statements : List (List Char)) : List Char :=
  statements.flatMap fun statement => statement ++ ['\n']

/-- Drops a carriage return at the end of a line. -/
def dropReturn (line : List Char) : List Char :=
  match line.reverse with
  | '\r' :: rest => rest.reverse
  | _ => line

/-- The lines of a text, each without the characters that end it. `line` holds the line at hand,
last character first. -/
def linesFrom (line : List Char) : List Char → List (List Char)
  | [] => if line.isEmpty then [] else [line.reverse]
  | c :: text =>
    if c = '\n' then dropReturn line.reverse :: linesFrom [] text
    else linesFrom (c :: line) text

end Dot

open Dot

def nodeText (graph : Graph) (options : DrawOptions) : String :=
  String.ofList (unlines (nodeStatements options graph))

def edgeText (graph : Graph) : String := String.ofList (unlines (edgeStatements graph))

/-- The nodes, an empty line and the edges. -/
def bodyText (graph : Graph) (options : DrawOptions) : String :=
  graph.nodeText options ++ "\n" ++ graph.edgeText

/-- A complete graph in DOT. -/
def dotText (graph : Graph) (options : DrawOptions) : String :=
  let lines := (linesFrom [] (graph.bodyText options).toList).filter fun line => !line.isEmpty
  "digraph \x7b\n" ++ String.ofList (unlines (lines.map fun line => "    ".toList ++ line)) ++
    "\x7d\n"

end FlowPath.Graph
