import FlowPath.Analysis
import FlowPath.CommandLine.Arguments

/-!
# Reports

What the command has to say besides its output: why a run fails, in messages of which each has the
next one as its cause, and how the command is used.
-/

namespace FlowPath

/-- Why a run fails. `path` is the file at fault, `cause` what the system says. -/
inductive RunError where
  | readConfig (path cause : String)
  | config (path : String) (error : JsonError)
  | readTree (path cause : String)
  | readStdin (cause : String)
  | tree (error : JsonError)
  | readBatch (path cause : String)
  | batch (path : String) (error : JsonError)
  | inputs (text : String) (error : JsonError)
  | analysis (shown : String) (error : AnalysisError)
  | write (path cause : String)
deriving DecidableEq, Repr

/-- What is wrong with a configuration, the outermost message first. -/
def configMessages (error : JsonError) : List String :=
  ["failed to parse pathviz config", error.message]

/-- What is wrong with a batch of inputs. -/
def batchMessages (error : JsonError) : List String :=
  ["batch file must hold a JSON array", error.message]

/-- What is wrong with the text of a program. -/
def treeMessage (error : JsonError) : String := "malformed flow tree: " ++ error.message

/-- The messages of an error, each followed by its cause. -/
def RunError.messages : RunError → List String
  | .readConfig path cause => ["failed to read config: " ++ path, cause]
  | .config path error => ("in " ++ path) :: configMessages error
  | .readTree path cause => ["failed to read flow tree: " ++ path, cause]
  | .readStdin cause => ["failed to read flow tree from stdin", cause]
  | .tree error => ["failed to load flow tree", treeMessage error, error.message]
  | .readBatch path cause => ["failed to read batch file: " ++ path, cause]
  | .batch path error => ("in " ++ path) :: batchMessages error
  | .inputs text error => ["invalid input vector `" ++ text ++ "`", error.message]
  | .analysis shown error => ["analysis failed for input " ++ shown, error.message]
  | .write path cause => ["failed to write output: " ++ path, cause]

def UsageError.message : UsageError → String
  | .missingTree => "the path of the program is missing"
  | .unknown => "an argument is not known"
  | .invalidValue => "the value of an option is missing or not possible"
  | .badNumber => "the value of an option is no number in the range"
  | .conflict => "arguments exclude each other"
  | .unneededValue => "a flag takes no value"
  | .help => ""
  | .version => ""

namespace Report

def usage : String :=
  "Usage: pathviz [OPTIONS] <TREE>\n\n" ++
  "  -i, --input <INPUT>              inputs as a comma-separated list of JSON values\n" ++
  "      --batch <BATCH>              JSON file with a list of input lists\n" ++
  "  -e, --emit <EMIT>                dot, nodes, edges, tree or env\n" ++
  "  -f, --function <FUNCTION>        the function to draw\n" ++
  "  -c, --config <CONFIG>            the configuration file\n" ++
  "      --unroll-budget <NUMBER>     rounds of a loop beyond the first\n" ++
  "      --strict-inputs              fail when inputs run out\n" ++
  "      --no-step-numbers            leave the step out of labels\n" ++
  "  -o, --out <OUT>                  write the output to a file\n" ++
  "      --pretty                     spread JSON over lines\n" ++
  "      --no-color                   no colours in errors\n"

end Report

end FlowPath
