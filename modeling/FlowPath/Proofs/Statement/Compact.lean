import FlowPath.Proofs.Statement.Shown
import FlowPath.Statement.Compact

/-!
# Compaction by runs

`mergeRuns` takes a sequence apart into its longest runs of mergeable statements and the statements
between them: a run becomes one statement with the texts of all (`mergeRuns_append`), any other
statement stays as it is (`mergeRuns_cons`). `run_induction` is the induction that goes with it, and
`block_induction` the one that goes on into the branches, as compaction does. Whatever the runs are, a
merged statement is one of the sequence up to its text (`mem_mergeRuns`).
-/

namespace FlowPath.Statement

theorem compactAllInside_eq_map (statements : List Statement) :
    compactAllInside statements = statements.map compactInside := by
  induction statements with
  | nil => rfl
  | cons s rest ih => rw [compactAllInside, ih]; rfl

theorem compactInside_of_branching {s : Statement} (h : s.kind.isBranching = true) :
    s.compactInside = { s with children := mergeGroups (s.children.map compactInside) } := by
  obtain ⟨kind, text, role, onPath, children⟩ := s
  rw [compactInside, if_pos h, compactAllInside_eq_map]

theorem compactInside_of_not_branching {s : Statement} (h : s.kind.isBranching = false) :
    s.compactInside = s := by
  obtain ⟨kind, text, role, onPath, children⟩ := s
  exact if_neg (by simpa using h)

@[simp] theorem compactInside_kind (s : Statement) : s.compactInside.kind = s.kind := by
  cases h : s.kind.isBranching
  · rw [compactInside_of_not_branching h]
  · rw [compactInside_of_branching h]

@[simp] theorem compactInside_role (s : Statement) : s.compactInside.role = s.role := by
  cases h : s.kind.isBranching
  · rw [compactInside_of_not_branching h]
  · rw [compactInside_of_branching h]

@[simp] theorem compactInside_text (s : Statement) : s.compactInside.text = s.text := by
  cases h : s.kind.isBranching
  · rw [compactInside_of_not_branching h]
  · rw [compactInside_of_branching h]

@[simp] theorem compactInside_onPath (s : Statement) : s.compactInside.onPath = s.onPath := by
  cases h : s.kind.isBranching
  · rw [compactInside_of_not_branching h]
  · rw [compactInside_of_branching h]

/-! ## Merged statements come from the sequence -/

theorem mem_mergeInto {s last : Statement} {rest : List Statement} (h : s ∈ mergeInto last rest) :
    ∃ x ∈ last :: rest, ∃ text, s = { x with text } := by
  induction rest generalizing last with
  | nil =>
    obtain rfl := List.mem_singleton.mp h
    exact ⟨s, List.mem_cons_self, s.text, by cases s; rfl⟩
  | cons next rest ih =>
    rw [mergeInto] at h
    split at h
    · obtain ⟨x, hx, text, hs⟩ := ih h
      rcases List.mem_cons.mp hx with rfl | hx
      · exact ⟨last, List.mem_cons_self, text, hs⟩
      · exact ⟨x, List.mem_cons_of_mem _ (List.mem_cons_of_mem _ hx), text, hs⟩
    · rcases List.mem_cons.mp h with rfl | h
      · exact ⟨s, List.mem_cons_self, s.text, by cases s; rfl⟩
      · obtain ⟨x, hx, text, hs⟩ := ih h
        exact ⟨x, List.mem_cons_of_mem _ hx, text, hs⟩

theorem mem_mergeRuns {s : Statement} {statements : List Statement} (h : s ∈ mergeRuns statements) :
    ∃ x ∈ statements, ∃ text, s = { x with text } := by
  cases statements with
  | nil => exact absurd h List.not_mem_nil
  | cons first rest => exact mem_mergeInto h

theorem mem_mergeGroups {s : Statement} {children : List Statement} (h : s ∈ mergeGroups children) :
    ∃ x ∈ children, ∃ text, s = { x with text } := by
  rcases List.mem_append.mp h with h | h <;>
  · obtain ⟨x, hx, hs⟩ := mem_mergeRuns h
    exact ⟨x, (List.mem_filter.mp hx).1, hs⟩

theorem mem_compactSequence {s : Statement} {statements : List Statement}
    (h : s ∈ compactSequence statements) :
    ∃ x ∈ statements, ∃ text, s = { x.compactInside with text } := by
  rw [compactSequence, compactAllInside_eq_map] at h
  obtain ⟨y, hy, text, rfl⟩ := mem_mergeRuns h
  obtain ⟨x, hx, rfl⟩ := List.mem_map.mp hy
  exact ⟨x, hx, text, rfl⟩

/-- The children of a compacted statement are children of it, compacted and up to their texts. -/
theorem mem_compactInside_children {s child : Statement} (h : child ∈ s.compactInside.children)
    (hs : s.kind.isBranching = true) :
    ∃ c ∈ s.children, ∃ text, child = { c.compactInside with text } := by
  rw [compactInside_of_branching hs] at h
  obtain ⟨x, hx, text, rfl⟩ := mem_mergeGroups h
  obtain ⟨c, hc, rfl⟩ := List.mem_map.mp hx
  exact ⟨c, hc, text, rfl⟩

/-! ## Functions of a program -/

theorem compactFunction_kind (s : Statement) : s.compactFunction.kind = s.kind := by
  unfold compactFunction
  split <;> rfl

/-- Compacting makes no function and removes none. -/
theorem functions_compactProgram (root : Statement) :
    root.compactProgram.functions = root.functions.map compact := by
  by_cases h : root.functions = []
  · rw [compactProgram, if_pos (by rw [h]; rfl), h]
    refine List.filter_eq_nil_iff.mpr fun s hs => ?_
    obtain ⟨x, hx, text, rfl⟩ := mem_compactSequence hs
    simpa using List.filter_eq_nil_iff.mp h x hx
  · rw [compactProgram, if_neg (by simpa using h)]
    simp only [functions, List.filter_map, Function.comp_def, compactFunction_kind]
    refine List.map_congr_left fun s hs => ?_
    rw [compactFunction, if_pos (of_decide_eq_true (List.mem_filter.mp hs).2)]

/-! ## Runs -/

/-- The statement that stands for a run: the first one with the texts of all. -/
def fuse (first : Statement) (others : List Statement) : Statement :=
  { first with text := "\n".intercalate (first.text :: others.map (·.text)) }

@[simp] theorem fuse_nil (s : Statement) : fuse s [] = s := by cases s; rfl

theorem mergeInto_append {last : Statement} {run rest : List Statement}
    (hlast : last.kind.isMergeable = true) (hrun : ∀ s ∈ run, s.kind.isMergeable = true)
    (hrest : ∀ s ∈ rest.head?, s.kind.isMergeable = false) :
    mergeInto last (run ++ rest) = fuse last run :: mergeRuns rest := by
  induction run generalizing last with
  | nil =>
    cases rest with
    | nil => simp [mergeInto, mergeRuns]
    | cons next rest => simp [mergeInto, mergeRuns, hrest next rfl]
  | cons s run ih =>
    rw [List.forall_mem_cons] at hrun
    rw [List.cons_append, mergeInto, if_pos (by simp [hlast, hrun.1])]
    refine (ih ?_ hrun.2).trans rfl
    exact hlast

/-- A longest run of mergeable statements becomes one statement. -/
theorem mergeRuns_append {first : Statement} {others rest : List Statement}
    (hrun : ∀ s ∈ first :: others, s.kind.isMergeable = true)
    (hrest : ∀ s ∈ rest.head?, s.kind.isMergeable = false) :
    mergeRuns (first :: others ++ rest) = fuse first others :: mergeRuns rest := by
  rw [List.forall_mem_cons] at hrun
  exact mergeInto_append hrun.1 hrun.2 hrest

/-- A statement that cannot share a block stays as it is. -/
theorem mergeRuns_cons {s : Statement} {rest : List Statement} (h : s.kind.isMergeable = false) :
    mergeRuns (s :: rest) = s :: mergeRuns rest := by
  cases rest with
  | nil => rfl
  | cons next rest => simp [mergeRuns, mergeInto, h]

/-- Runs stay runs when the statements are compacted inside. -/
theorem mergeRuns_compactInside_append {first : Statement} {others rest : List Statement}
    (hrun : ∀ s ∈ first :: others, s.kind.isMergeable = true)
    (hrest : ∀ s ∈ rest.head?, s.kind.isMergeable = false) :
    mergeRuns ((first :: others ++ rest).map compactInside) =
      fuse first.compactInside (others.map compactInside) :: mergeRuns (rest.map compactInside) := by
  rw [List.map_append, List.map_cons]
  refine mergeRuns_append ?_ (by simpa using hrest)
  rw [← List.map_cons]
  exact List.forall_mem_map.mpr fun s hs => by simpa using hrun s hs

theorem mergeRuns_compactInside_cons {s : Statement} {rest : List Statement}
    (h : s.kind.isMergeable = false) :
    mergeRuns ((s :: rest).map compactInside) = s.compactInside :: mergeRuns (rest.map compactInside) := by
  rw [List.map_cons, mergeRuns_cons (by simpa using h)]

/-- Induction over the longest runs of members with property `p` and the members between them. -/
theorem run_induction {α : Type} (p : α → Bool) {motive : List α → Prop} (nil : motive [])
    (single : ∀ x rest, p x = false → motive rest → motive (x :: rest))
    (run : ∀ first others rest, (∀ x ∈ first :: others, p x = true) →
      (∀ x ∈ rest.head?, p x = false) → motive rest → motive (first :: others ++ rest))
    (list : List α) : motive list := by
  match list with
  | [] => exact nil
  | x :: rest =>
    cases hx : p x with
    | false => exact single x rest hx (run_induction p nil single run rest)
    | true =>
      have hshort : (rest.dropWhile p).length ≤ rest.length := (List.dropWhile_sublist p).length_le
      have ih := run_induction p nil single run (rest.dropWhile p)
      rw [← List.takeWhile_append_dropWhile (p := p) (l := rest), ← List.cons_append]
      refine run x (rest.takeWhile p) (rest.dropWhile p) ?_ ?_ ih
      · rw [List.forall_mem_cons]
        exact ⟨hx, List.all_eq_true.mp List.all_takeWhile⟩
      · intro y hy
        have h := List.head?_dropWhile_not p rest
        rw [Option.mem_def.mp hy] at h
        simpa using h
termination_by list.length
decreasing_by
  · exact Nat.lt_succ_self rest.length
  · exact Nat.lt_succ_of_le hshort

/-! ## Branches -/

/-- The children that a graph shows in one branch: the alternates, or those that are none. -/
def branch (s : Statement) (alternate : Bool) : List Statement :=
  s.shownChildren.filter fun child => child.isAlternate == alternate

theorem mem_children_of_mem_branch {s child : Statement} {alternate : Bool}
    (h : child ∈ s.branch alternate) : child ∈ s.children ∧ child.isAlternate = alternate := by
  obtain ⟨hc, hgroup⟩ := List.mem_filter.mp h
  exact ⟨mem_children_of_mem_shownChildren hc, by simpa using hgroup⟩

theorem filter_mergeRuns {statements : List Statement} (alternate other : Bool)
    (h : ∀ s ∈ statements, s.isAlternate = alternate) :
    (mergeRuns statements).filter (fun s => s.isAlternate == other) =
      if alternate = other then mergeRuns statements else [] := by
  have hmerged : ∀ s ∈ mergeRuns statements, s.isAlternate = alternate := by
    intro s hs
    obtain ⟨x, hx, text, rfl⟩ := mem_mergeRuns hs
    exact h x hx
  split
  · exact List.filter_eq_self.mpr fun s hs => by simp_all
  · exact List.filter_eq_nil_iff.mpr fun s hs => by simp_all

@[simp] theorem compactInside_isAlternate (s : Statement) : s.compactInside.isAlternate = s.isAlternate := by
  simp [isAlternate]

/-- Inside a compacted statement stand the merged runs of its branches, one branch after the other. -/
theorem shownChildren_compactInside (s : Statement) :
    s.compactInside.shownChildren =
      mergeRuns ((s.branch false).map compactInside) ++ mergeRuns ((s.branch true).map compactInside) := by
  cases hk : s.kind.isBranching with
  | false => simp [branch, shownChildren, hk, mergeRuns]
  | true =>
    rw [shownChildren_of_branching (by simpa using hk), compactInside_of_branching hk, mergeGroups]
    simp [branch, shownChildren_of_branching hk, List.filter_map, Function.comp_def]

/-- Compaction merges the runs of every branch, and keeps the branches apart. -/
theorem branch_compactInside (s : Statement) (alternate : Bool) :
    s.compactInside.branch alternate = mergeRuns ((s.branch alternate).map compactInside) := by
  have hgroup : ∀ other, ∀ x ∈ (s.branch other).map compactInside, x.isAlternate = other := fun other =>
    List.forall_mem_map.mpr fun x hx => by simp [(mem_children_of_mem_branch hx).2]
  rw [branch, shownChildren_compactInside, List.filter_append, filter_mergeRuns false _ (hgroup false),
    filter_mergeRuns true _ (hgroup true)]
  cases alternate <;> simp

/-- Induction along compaction: over the longest runs of mergeable statements of a sequence and the
statements between them, and for these over their branches. -/
theorem block_induction {motive : List Statement → Prop} (nil : motive [])
    (single : ∀ s rest, s.kind.isMergeable = false → motive (s.branch false) →
      motive (s.branch true) → motive rest → motive (s :: rest))
    (run : ∀ first others rest, (∀ s ∈ first :: others, s.kind.isMergeable = true) →
      (∀ s ∈ rest.head?, s.kind.isMergeable = false) → motive rest → motive (first :: others ++ rest))
    (statements : List Statement) : motive statements := by
  have sequence : ∀ list : List Statement, (∀ s ∈ list, ∀ alternate, motive (s.branch alternate)) →
      motive list := by
    refine run_induction (fun s => s.kind.isMergeable) (fun _ => nil) ?_ ?_
    · intro s rest hs ih h
      obtain ⟨hbranch, hrest⟩ := List.forall_mem_cons.mp h
      exact single s rest hs (hbranch false) (hbranch true) (ih hrest)
    · intro first others rest hrun hends ih h
      exact run first others rest hrun hends (ih (List.forall_mem_append.mp h).2)
  have inside : ∀ s : Statement, ∀ alternate, motive (s.branch alternate) := by
    intro s
    induction s with
    | node kind text role onPath children ih =>
      exact fun alternate => sequence _ fun child hc => ih child (mem_children_of_mem_branch hc).1
  exact sequence statements fun s _ => inside s

end FlowPath.Statement
