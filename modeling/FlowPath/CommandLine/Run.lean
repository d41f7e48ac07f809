import FlowPath.CommandLine.Files
import FlowPath.CommandLine.Report
import FlowPath.CommandLine.Settings
import FlowPath.Statement.FlowJson

/-!
# Running the command

A run reads the configuration, the program and the inputs, in this order, analyses the program under
all inputs and renders what was asked for. Whatever fails first ends the run.
-/

namespace FlowPath

/-- What a run gives. -/
structure RunResult where
  output : String
  /-- The number of analyses. -/
  analyses : Nat
  /-- The loops that were cut off, analysis by analysis. -/
  truncated : List TruncatedLoop

namespace CommandLine

/-- The configuration that is looked for in the working directory. -/
def configName : String := "pathviz.json"

/-! ## Rendering -/

/-- The JSON of an analysis: the tree or the variables. -/
def jsonOf (emit : Emit) (analysis : Analysis) : Json :=
  match emit with
  | .tree => analysis.tree.toJson
  | _ => analysis.summary.toJson

/-- The text of an analysis in DOT: all of it, or the statements of its nodes or edges. -/
def dotOf (emit : Emit) (draw : Graph.DrawOptions) (analysis : Analysis) : String :=
  match emit with
  | .nodes => analysis.graph.nodeText draw
  | .edges => analysis.graph.edgeText
  | _ => analysis.graph.dotText draw

/-- A single analysis stands alone, unless it comes from a batch. -/
def jsonOfAll (batch : Bool) (values : List Json) : Json :=
  match batch, values with
  | false, [single] => single
  | _, values => .array values

/-- The output of a run. -/
def render (args : Arguments) (draw : Graph.DrawOptions) (analyses : List Analysis) : String :=
  if args.emit.isJson then
    let style : Json.Style := if args.pretty then .pretty else .compact
    (jsonOfAll args.batch.isSome (analyses.map (jsonOf args.emit))).render style ++ "\n"
  else "\n".intercalate (analyses.map (dotOf args.emit draw))

/-- The inputs of a run as they are shown. -/
def shownInputs (inputs : List Value) : String := (Value.array inputs).toJson.render .compact

/-- One analysis after the other, up to the first that fails. -/
def analyzeAll (options : AnalysisOptions) (program : Statement) (vectors : List (List Value)) :
    Except RunError (List Analysis) :=
  vectors.mapM fun inputs =>
    (Analysis.run options inputs program).mapError (.analysis (shownInputs inputs))

/-! ## Reading -/

section

variable {m : Type → Type} [Monad m]

/-- Reads a file, with the error to raise if it cannot be read. -/
def readFile (files : FileAccess m) (path : String) (error : String → RunError) :
    ExceptT RunError m String := do
  match ← files.read path with
  | .ok content => return content
  | .error cause => throw (error cause)

/-- The configuration of the given path, or the one in the working directory if there is one. -/
def readConfig (files : FileAccess m) (directory : String) (args : Arguments) :
    ExceptT RunError m Configuration := do
  let path? ← (do
    match args.config with
    | some path => return some (joinPath directory path)
    | none =>
      let path := joinPath directory configName
      return if ← files.isFile path then some path else none)
  match path? with
  | none => return {}
  | some path =>
    let text ← readFile files path (.readConfig path)
    match Configuration.parse text with
    | .ok configuration => return configuration
    | .error e => throw (.config path e)

def readTree (files : FileAccess m) (directory : String) (args : Arguments) :
    ExceptT RunError m Statement := do
  let text ← (do
    if args.readsStdin then
      match ← files.readStdin with
      | .ok text => return text
      | .error cause => throw (.readStdin cause)
    else
      let path := joinPath directory args.tree
      readFile files path (.readTree path))
  match Statement.parseFlow text with
  | .ok program => return program
  | .error e => throw (.tree e)

/-- The inputs of all runs: those of the batch, or the ones of the command line. -/
def readInputs (files : FileAccess m) (directory : String) (args : Arguments) :
    ExceptT RunError m (List (List Value)) := do
  match args.batch with
  | some name =>
    let path := joinPath directory name
    let text ← readFile files path (.readBatch path)
    match Analysis.parseBatch text with
    | .ok vectors => return vectors
    | .error e => throw (.batch path e)
  | none =>
    match Analysis.parseInputs args.input with
    | .ok inputs => return [inputs]
    | .error e => throw (.inputs args.input e)

/-- Runs the command in a directory. -/
def run (files : FileAccess m) (directory : String) (args : Arguments) :
    ExceptT RunError m RunResult := do
  let configuration ← readConfig files directory args
  let settings := Settings.resolve configuration args
  let program ← readTree files directory args
  let vectors ← readInputs files directory args
  let options : AnalysisOptions := { walk := settings.walk, function := args.function }
  match analyzeAll options program vectors with
  | .error e => throw e
  | .ok analyses =>
    return {
      output := render args settings.draw analyses
      analyses := analyses.length
      truncated := analyses.flatMap (·.summary.truncated) }

/-- Writes the output to the file that was asked for. -/
def writeOutput (files : FileAccess m) (directory name output : String) :
    ExceptT RunError m Unit := do
  let path := joinPath directory name
  match ← files.write path output with
  | .ok () => return ()
  | .error cause => throw (.write path cause)

end

end CommandLine

end FlowPath
