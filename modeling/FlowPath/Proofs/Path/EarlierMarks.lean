import FlowPath.Proofs.Path.Lockstep

/-!
# Marks that are there already

A walk sets marks and takes none away, and it never looks at them. So it does the same on a tree with any
marks as on the tree without marks: it finds out the same or fails with the same error, and at its end the
marks of every statement are those it had joined with those of the walk through the tree without marks
(`annotate_over_marks`). That holds of walks that fail as well, whose marks are those of the statements
reached before the error.
-/

namespace FlowPath

namespace Statement

/-- The marks of a tree, in the order of the text. -/
def marks (s : Statement) : List Bool := (s.outline 0).map (·.2.onPath)

/-- The marks of a sequence of trees. -/
def marksAll (statements : List Statement) : List Bool := statements.flatMap marks

theorem map_outlineAll_onPath (depth : Nat) {statements : List Statement}
    (h : ∀ s ∈ statements, ∀ depth, (s.outline depth).map (·.2.onPath) = s.marks) :
    (outlineAll depth statements).map (·.2.onPath) = marksAll statements := by
  induction statements with
  | nil => rfl
  | cons s rest ih =>
    obtain ⟨hfirst, hrest⟩ := List.forall_mem_cons.mp h
    rw [outlineAll, List.map_append, hfirst depth, ih hrest]
    rfl

/-- The depth at which a tree stands does not matter for its marks. -/
theorem map_outline_onPath (s : Statement) (depth : Nat) : (s.outline depth).map (·.2.onPath) = s.marks := by
  induction s generalizing depth with
  | node kind text role onPath children ih =>
    rw [marks, outline, outline, List.map_cons, List.map_cons, map_outlineAll_onPath _ ih,
      map_outlineAll_onPath _ ih]

@[simp] theorem marks_node (kind : Kind) (text : String) (role : Option Role) (onPath : Bool)
    (children : List Statement) :
    marks ⟨kind, text, role, onPath, children⟩ = onPath :: marksAll children := by
  rw [marks, outline, List.map_cons, map_outlineAll_onPath _ fun s _ => map_outline_onPath s]

/-- A join has the marks of both trees, statement by statement. -/
theorem marks_join {s t : Statement} (h : s.unmarked = t.unmarked) :
    s.marks.length = t.marks.length ∧ (s.join t).marks = List.zipWith (· || ·) s.marks t.marks := by
  refine alike_induction (motive := fun s t => s.marks.length = t.marks.length ∧
    (s.join t).marks = List.zipWith (· || ·) s.marks t.marks) ?_ h
  intro kind text role a b xs ys hxy
  have hchildren : (marksAll xs).length = (marksAll ys).length ∧
      marksAll (joinAll xs ys) = List.zipWith (· || ·) (marksAll xs) (marksAll ys) := by
    induction hxy with
    | nil => exact ⟨rfl, rfl⟩
    | @cons x y xs ys hhead _ ih =>
      obtain ⟨-, hlength, hmarks⟩ := hhead
      -- The marks of the first trees end at the same place, so that the rest can be joined apart.
      refine ⟨?_, ?_⟩
      · simp only [marksAll, List.flatMap_cons, List.length_append, hlength]
        exact congrArg (y.marks.length + ·) ih.1
      · simp only [joinAll, marksAll, List.flatMap_cons, hmarks, List.zipWith_append hlength]
        exact congrArg (List.zipWith (· || ·) x.marks y.marks ++ ·) ih.2
  rw [join_eq]
  simp only [marks_node, List.length_cons, List.zipWith_cons_cons, hchildren.1, hchildren.2, and_self]

end Statement

namespace Path

variable {μ : Type}

/-- A walk through a tree with marks is the walk through the tree without marks, and joins the marks of that
to those of the tree. -/
theorem walkTree_over_marks (texts : Texts μ) (options : WalkOptions) (tree : Statement)
    (session : Session μ) :
    let fresh := walkTree texts options tree.unmarked session
    tree.unmarked = fresh.value.unmarked ∧
      walkTree texts options tree session = { fresh with value := tree.join fresh.value } := by
  obtain ⟨added, hadded, hvalue, hwalk⟩ := walk_of_alike texts options 0 (Statement.unmarked_unmarked tree)
    [session.trees] { session with trees := session.trees + 1 }
  -- Without marks to begin with, the marks that are added are all there are.
  rw [Statement.join_of_blank_left hadded (Statement.blank_unmarked tree)] at hvalue
  rw [Statement.unmarked_unmarked, ← hvalue] at hadded
  rw [← hvalue] at hwalk
  exact ⟨hadded, hwalk⟩

/-- The marks that a program has already change nothing. Whatever marks a tree has, under any inputs and
options the result is that for the tree without marks, be it a summary or an error; the statements are as
before but for their marks; and the marks are those the tree had, joined statement by statement with those
that the tree without marks gets. -/
theorem annotate_over_marks (options : WalkOptions) (inputs : List Value) (tree : Statement) :
    let (marked, result) := annotate options inputs tree
    let (fresh, freshResult) := annotate options inputs tree.unmarked
    result = freshResult ∧ marked.unmarked = tree.unmarked ∧
      marked.marks = List.zipWith (· || ·) tree.marks fresh.marks := by
  obtain ⟨halike, hwalk⟩ :=
    walkTree_over_marks Texts.remembered options tree (Session.start options inputs {})
  obtain ⟨-, hmarks⟩ := Statement.marks_join halike
  simp only [annotate, conclude, hwalk]
  generalize walkTree Texts.remembered options tree.unmarked (Session.start options inputs {}) = fresh at *
  cases fresh.error <;> exact ⟨rfl, Statement.unmarked_join _ _, hmarks⟩

end Path

end FlowPath
