import FlowPath.Path.Session

/-!
# Logging

What goes to the standard error. Errors come with their causes, and loops that were cut off with a
warning; on a terminal the words that start a line are coloured. Logging as such is asked for through
variables of the system environment: one holds what to log, another the format. The command's own
variable wins over the general one.
-/

namespace FlowPath

namespace Report

/-- A colour, by the numbers that a terminal knows it by. -/
def paint (color : Bool) (codes text : String) : String :=
  if color then "\x1b[" ++ codes ++ "m" ++ text ++ "\x1b[0m" else text

/-- An error, the outermost message first. -/
def error (color : Bool) (message : String) (causes : List String) : String :=
  let head := paint color "1;31" "error" ++ ": " ++ message
  causes.foldl (fun out cause => out ++ "\n  " ++ paint color "2" "caused by" ++ ": " ++ cause) head

def truncation (color : Bool) (loop : TruncatedLoop) : String :=
  let line :=
    paint color "1;33" "warning" ++ ": loop `" ++ loop.condition ++ "` truncated after " ++
      toString loop.iterations ++ " iterations"
  if 1 < loop.truncations then line ++ " (" ++ toString loop.truncations ++ " times)" else line

end Report

inductive LogFormat where
  | text
  | tree
  | json
deriving DecidableEq, Repr

structure LogSettings where
  /-- What to log. -/
  directives : String
  format : LogFormat
deriving DecidableEq, Repr

/-- The format of a name, in any case; a name that is not known means plain text. Only the ASCII
letters have the letters of these names as their lower case. -/
def LogFormat.ofName (name : String) : LogFormat :=
  match String.ofList ((Text.trim name.toList).map Char.toLower) with
  | "tree" => .tree
  | "json" => .json
  | _ => .text

/-- The settings that the variables ask for, if they do. -/
def LogSettings.ofVariables? (valueOf : String → Option String) : Option LogSettings :=
  match valueOf "PATHVIZ_LOG" <|> valueOf "RUST_LOG" with
  | none => none
  | some directives =>
    let format := ((valueOf "PATHVIZ_LOG_FORMAT").map LogFormat.ofName).getD .text
    some { directives, format }

end FlowPath
