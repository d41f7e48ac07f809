import FlowPath.Statement.Basic

/-!
# Marks

Two trees that differ in their marks alone can be joined: a statement is then marked if it is marked
in one of them.
-/

namespace FlowPath.Statement

mutual

/-- The first tree with the marks of both. -/
def join : Statement → Statement → Statement
  | ⟨kind, text, role, onPath, children⟩, other =>
    ⟨kind, text, role, onPath || other.onPath, joinAll children other.children⟩

/-- The trees of the first list with the marks of both lists. -/
def joinAll : List Statement → List Statement → List Statement
  | [], _ => []
  | s :: rest, [] => s :: rest
  | s :: rest, other :: others => join s other :: joinAll rest others

end

mutual

/-- The tree without marks. -/
def unmarked : Statement → Statement
  | ⟨kind, text, role, _, children⟩ => ⟨kind, text, role, false, unmarkedAll children⟩

def unmarkedAll : List Statement → List Statement
  | [] => []
  | s :: rest => unmarked s :: unmarkedAll rest

end

end FlowPath.Statement
