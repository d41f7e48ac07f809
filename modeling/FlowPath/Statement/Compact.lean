import FlowPath.Statement.Basic

/-!
# Compaction

For display, neighbouring statements that run one after the other are merged into one block: the
first of them with all their texts, a line each. Conditionals, loops and returns stay alone. Inside
a conditional or a loop the children that are no alternates come first, then the alternates, and
blocks do not reach from one group into the other.
-/

namespace FlowPath.Statement

def isAlternate (s : Statement) : Bool := s.role == some .alternate

/-- Merges the statements of a sequence into `last`, as far as they go. -/
def mergeInto (last : Statement) : List Statement → List Statement
  | [] => [last]
  | s :: rest =>
    if last.kind.isMergeable && s.kind.isMergeable then
      mergeInto { last with text := last.text ++ "\n" ++ s.text } rest
    else last :: mergeInto s rest

/-- Merges the neighbours of a sequence that can share a block. -/
def mergeRuns : List Statement → List Statement
  | [] => []
  | s :: rest => mergeInto s rest

/-- The groups of a branching statement, each with its neighbours merged. -/
def mergeGroups (children : List Statement) : List Statement :=
  mergeRuns (children.filter fun child => !child.isAlternate) ++
    mergeRuns (children.filter fun child => child.isAlternate)

mutual

/-- Compacts what lies inside a conditional or a loop; other statements stay as they are. -/
def compactInside : Statement → Statement
  | ⟨kind, text, role, onPath, children⟩ =>
    if kind.isBranching then ⟨kind, text, role, onPath, mergeGroups (compactAllInside children)⟩
    else ⟨kind, text, role, onPath, children⟩

def compactAllInside : List Statement → List Statement
  | [] => []
  | s :: rest => compactInside s :: compactAllInside rest

end

/-- The compacted form of a sequence. -/
def compactSequence (statements : List Statement) : List Statement :=
  mergeRuns (compactAllInside statements)

/-- The statement with its children compacted. -/
def compact (s : Statement) : Statement := { s with children := compactSequence s.children }

/-- The function with its children compacted; any other statement as it is. -/
def compactFunction (s : Statement) : Statement := if s.kind = .function then s.compact else s

/-- A program with its functions compacted, or if it has none with its own statements compacted. -/
def compactProgram (root : Statement) : Statement :=
  if root.functions.isEmpty then root.compact
  else { root with children := root.children.map compactFunction }

end FlowPath.Statement
