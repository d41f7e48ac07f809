import FlowPath.Path.Walk
import FlowPath.Value.Json

/-!
# Summaries

What a walk through a whole program finds out: the variables of the root scope at its end, and the
loops that were cut off.
-/

namespace FlowPath

structure Summary where
  /-- The variables of the root scope, in the order in which they were first bound. -/
  bindings : Frame
  truncated : List TruncatedLoop

namespace Summary

variable {μ : Type}

def ofSession (session : Session μ) : Summary where
  bindings := (session.environment.frame? 0).getD []
  truncated := session.truncated.map (·.2)

def loopJson (loop : TruncatedLoop) : Json :=
  .object
    [("condition", .string loop.condition), ("iterations", .number (.whole loop.iterations)),
     ("truncations", .number (.whole loop.truncations))]

def toJson (summary : Summary) : Json :=
  .object
    [("bindings", .object (summary.bindings.map fun (name, value) => (name, value.toJson))),
     ("truncatedLoops", .array (summary.truncated.map loopJson))]

end Summary

namespace Path

variable {μ : Type}

/-- Walks the last tree of a session and tells what came out. The tree keeps its marks even if the
walk fails. -/
def conclude (texts : Texts μ) (options : WalkOptions) (tree : Statement) (session : Session μ) :
    Statement × Except WalkError Summary :=
  let outcome := walkTree texts options tree session
  match outcome.error with
  | some e => (outcome.value, .error e)
  | none => (outcome.value, .ok (.ofSession outcome.session))

/-- Marks the path of a program under the given inputs. -/
def annotate (options : WalkOptions) (inputs : List Value) (tree : Statement) :
    Statement × Except WalkError Summary :=
  conclude Texts.remembered options tree (Session.start options inputs {})

end Path

end FlowPath
