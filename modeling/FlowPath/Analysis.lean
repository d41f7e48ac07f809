import FlowPath.Graph.Dot
import FlowPath.Graph.Wiring
import FlowPath.Json.Record
import FlowPath.Path.Summary
import FlowPath.Statement.Compact

/-!
# Analyses

An analysis marks the path that a program takes under some inputs, compacts the program and draws
the graph of one of its functions. The inputs come as JSON values, as a list for one run or as a
list of such lists for many. What takes lists off a text is a parameter of the functions that turn
texts into inputs, since they hold for any reader of JSON.
-/

namespace FlowPath

structure AnalysisOptions where
  walk : WalkOptions := {}
  /-- The name of the function to draw; without one the first function is drawn. -/
  function : Option String := none

/-- What an analysis gives. -/
structure Analysis where
  /-- The program, marked and compacted. -/
  tree : Statement
  summary : Summary
  graph : Graph

inductive AnalysisError where
  | walk (error : WalkError)
  | noFunction (name : String)
deriving DecidableEq, Repr

def AnalysisError.message : AnalysisError → String
  | .walk error => error.message
  | .noFunction name => "no function named `" ++ name ++ "` in the flow tree"

/-- The function of the given name, or an error that says that there is none. -/
def Statement.selectFunction (root : Statement) (name : Option String) :
    Except AnalysisError Statement :=
  match root.select? name with
  | some function => .ok function
  | none => .error (.noFunction (name.getD ""))

namespace Analysis

def run (options : AnalysisOptions) (inputs : List Value) (program : Statement) :
    Except AnalysisError Analysis :=
  match Path.annotate options.walk inputs program with
  | (_, .error e) => .error (.walk e)
  | (marked, .ok summary) =>
    let tree := marked.compactProgram
    match tree.selectFunction options.function with
    | .error e => .error e
    | .ok function => .ok { tree, summary, graph := Graph.ofFunction function }

/-- Takes the elements of a list off a text. -/
abbrev ListReader := String → Except JsonError (List Json)

/-- The values of a list that is written without its brackets. -/
def inputsOfText (read : ListReader) (text : String) : Except JsonError (List Value) :=
  (read ("[" ++ text ++ "]")).map (·.map Value.ofJson)

/-- The inputs of one run; a value that is no list stands for the list of it alone. -/
def inputsOfEntry : Json → List Value
  | .array elements => elements.map Value.ofJson
  | single => [Value.ofJson single]

/-- The inputs of many runs. -/
def batchOfText (read : ListReader) (text : String) : Except JsonError (List (List Value)) :=
  (read text).map (·.map inputsOfEntry)

/-- The inputs of one run, with the reader of this library. -/
def parseInputs : String → Except JsonError (List Value) := inputsOfText Json.parseList

/-- The inputs of many runs, with the reader of this library. -/
def parseBatch : String → Except JsonError (List (List Value)) := batchOfText Json.parseList

end Analysis

end FlowPath
