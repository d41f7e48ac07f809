import FlowPath.Statement.Basic

/-!
# What graphs show

A graph shows the statements of a sequence and what is inside its conditionals and loops; whatever
other statements hold stays hidden. `shownAll` lists the shown statements in the order of the text.
Properties of trees are proved by `Statement.induction`, from the children of a statement to the
statement itself.
-/

namespace FlowPath.Statement

@[induction_eliminator]
theorem induction {motive : Statement → Prop}
    (node : ∀ kind text role onPath children, (∀ child ∈ children, motive child) →
      motive ⟨kind, text, role, onPath, children⟩) (s : Statement) : motive s :=
  @Statement.rec motive (fun children => ∀ child ∈ children, motive child) node
    (fun _ h => absurd h List.not_mem_nil)
    (fun _ _ first rest => List.forall_mem_cons.mpr ⟨first, rest⟩) s

/-- The children that a graph shows. -/
def shownChildren (s : Statement) : List Statement := if s.kind.isBranching then s.children else []

theorem mem_children_of_mem_shownChildren {s child : Statement} (h : child ∈ s.shownChildren) :
    child ∈ s.children := by
  unfold shownChildren at h
  split at h
  · exact h
  · exact absurd h List.not_mem_nil

theorem shownChildren_of_branching {s : Statement} (h : s.kind.isBranching = true) :
    s.shownChildren = s.children := if_pos h

theorem shownChildren_of_mergeable {s : Statement} (h : s.kind.isMergeable = true) :
    s.shownChildren = [] := by
  have hkind : s.kind.isBranching = false := by
    revert h
    cases s.kind <;> decide
  simp [shownChildren, hkind]

mutual

/-- The statement and what a graph shows of it, in the order of the text. -/
def shown : Statement → List Statement
  | ⟨kind, text, role, onPath, children⟩ =>
    ⟨kind, text, role, onPath, children⟩ :: if kind.isBranching then shownAll children else []

/-- What a graph shows of a sequence, in the order of the text. -/
def shownAll : List Statement → List Statement
  | [] => []
  | s :: rest => shown s ++ shownAll rest

end

theorem shown_eq (s : Statement) : shown s = s :: shownAll s.shownChildren := by
  obtain ⟨kind, text, role, onPath, children⟩ := s
  simp only [shown, shownChildren]
  split <;> rfl

@[simp] theorem shownAll_nil : shownAll [] = [] := rfl

@[simp] theorem shownAll_cons (s : Statement) (rest : List Statement) :
    shownAll (s :: rest) = s :: (shownAll s.shownChildren ++ shownAll rest) := by
  rw [shownAll, shown_eq]; rfl

theorem shownAll_eq_flatMap (statements : List Statement) :
    shownAll statements = statements.flatMap shown := by
  induction statements with
  | nil => rfl
  | cons s rest ih => rw [shownAll, ih, List.flatMap_cons]

theorem shownAll_append (xs ys : List Statement) : shownAll (xs ++ ys) = shownAll xs ++ shownAll ys := by
  simp only [shownAll_eq_flatMap, List.flatMap_append]

theorem shownAll_of_mergeable {statements : List Statement}
    (h : ∀ s ∈ statements, s.kind.isMergeable = true) : shownAll statements = statements := by
  induction statements with
  | nil => rfl
  | cons s rest ih =>
    obtain ⟨hs, hrest⟩ := List.forall_mem_cons.mp h
    rw [shownAll_cons, shownChildren_of_mergeable hs, ih hrest, shownAll_nil, List.nil_append]

end FlowPath.Statement
