import FlowPath.CommandLine.Logging
import FlowPath.CommandLine.Report
import FlowPath.Expr.Table
import FlowPath.Expr.TableParser
import FlowPath.Main
import FlowPath.Proofs.Graph.Numbering
import FlowPath.Proofs.Graph.Wiring
import FlowPath.Proofs.Graph.Departures
import FlowPath.Proofs.Graph.Reach
import FlowPath.Proofs.Statement.Marks
import FlowPath.Proofs.Statement.Traced
import FlowPath.Proofs.Path.Walk
import FlowPath.Proofs.Path.Lockstep
import FlowPath.Proofs.Path.Trace
import FlowPath.Proofs.Graph.Highlight
import FlowPath.Proofs.Path.Unbounded
import FlowPath.Proofs.Path.Exact
import FlowPath.Proofs.Graph.Merging
import FlowPath.Proofs.Graph.Contraction
import FlowPath.Proofs.Graph.Compaction
import FlowPath.Proofs.Graph.Passage
import FlowPath.Proofs.Environment.Scopes
import FlowPath.Proofs.Environment.Assignment
import FlowPath.Proofs.Environment.Stack
import FlowPath.Proofs.Environment.Snapshots
import FlowPath.Proofs.Environment.Copies
import FlowPath.Proofs.Environment.Ancestors
import FlowPath.Proofs.Environment.Elements
import FlowPath.Proofs.Path.Observed
import FlowPath.Proofs.Path.Checked
import FlowPath.Proofs.Graph.BackEdges
import FlowPath.Proofs.Path.Limits
import FlowPath.Proofs.Path.LoopRuns
import FlowPath.Proofs.Path.Cuts
import FlowPath.Proofs.Path.NestedLoops
import FlowPath.Proofs.Expr.Grammar
import FlowPath.Proofs.Expr.Runs
import FlowPath.Proofs.Expr.Soundness
import FlowPath.Proofs.Expr.Completeness
import FlowPath.Proofs.Expr.Language
import FlowPath.Proofs.Expr.Layout
import FlowPath.Proofs.Token.Pieces
import FlowPath.Proofs.Expr.Printing
import FlowPath.Proofs.Expr.RoundTrip
import FlowPath.Proofs.Path.Shape
import FlowPath.Proofs.Path.StraightLine
import FlowPath.Proofs.Statement.Blocks
import FlowPath.Proofs.Graph.Blocks
import FlowPath.Proofs.Statement.Grouping
import FlowPath.Proofs.Graph.Arrivals
import FlowPath.Proofs.Graph.Preorder
import FlowPath.Proofs.Environment.Locals
import FlowPath.Proofs.Path.Locals
import FlowPath.Proofs.Path.EarlierMarks
import FlowPath.Proofs.Path.Inputs
import FlowPath.Proofs.Graph.Quoted
import FlowPath.Proofs.Graph.NodeText
import FlowPath.Proofs.Token.Concatenation
import FlowPath.Proofs.Expr.Assignments
import FlowPath.Proofs.Path.CompoundAssignment
import FlowPath.Proofs.Graph.EdgeText
import FlowPath.Proofs.Statement.Parameters
import FlowPath.Proofs.Number.Integers
import FlowPath.Proofs.Json.Grammar
import FlowPath.Proofs.Json.Scalars
import FlowPath.Proofs.Json.Containers
import FlowPath.Proofs.Json.Reading
import FlowPath.Proofs.Json.Writing
import FlowPath.Proofs.Value.Inputs
import FlowPath.Proofs.Statement.FlowRecords
import FlowPath.Proofs.Statement.FlowText
import FlowPath.Proofs.Expr.Evaluation
import FlowPath.Proofs.Token.Tiling
import FlowPath.Proofs.Value.Equality
import FlowPath.Proofs.Expr.Postorder
import FlowPath.Proofs.Expr.Spans
import FlowPath.Proofs.Expr.TableParsing
import FlowPath.Proofs.Expr.ParsedTables
import FlowPath.Proofs.Number.Numerals
import FlowPath.Proofs.Expr.Literals
import FlowPath.Proofs.Path.Remembering
