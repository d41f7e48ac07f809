import FlowPath.Proofs.Statement.Compact

/-!
# Compaction is grouping

`Compacted` says what compaction makes of a sequence, not how: longest runs of mergeable statements become
one statement, returns stay, and conditionals and loops hold their compacted branches one after the other.
`compacted_iff` says that there is exactly one such sequence, the one that `compactSequence` computes. A
compacted sequence has no runs left and its branches stand in the order in which they are put, so compacting
it again changes nothing (`compactSequence_compactSequence`).
-/

namespace FlowPath.Statement

/-! ## Part by part -/

/-- A statement that cannot share a block is compacted inside. -/
theorem compactSequence_cons {s : Statement} {rest : List Statement} (h : s.kind.isMergeable = false) :
    compactSequence (s :: rest) = s.compactInside :: compactSequence rest := by
  rw [compactSequence, compactSequence, compactAllInside_eq_map, compactAllInside_eq_map,
    mergeRuns_compactInside_cons h]

theorem compactInside_of_mergeable {s : Statement} (h : s.kind.isMergeable = true) :
    s.compactInside = s := by
  refine compactInside_of_not_branching ?_
  revert h
  cases s.kind <;> decide

theorem compactInside_of_returning {s : Statement} (h : s.kind = .returning) : s.compactInside = s :=
  compactInside_of_not_branching (by rw [h]; rfl)

/-- A longest run of mergeable statements becomes its first statement with the texts of all. -/
theorem compactSequence_append {first : Statement} {others rest : List Statement}
    (hrun : ∀ s ∈ first :: others, s.kind.isMergeable = true)
    (hends : ∀ s ∈ rest.head?, s.kind.isMergeable = false) :
    compactSequence (first :: others ++ rest) = fuse first others :: compactSequence rest := by
  have hothers : others.map compactInside = others := by
    refine (List.map_congr_left fun s hs => ?_).trans (List.map_id others)
    exact compactInside_of_mergeable (hrun s (List.mem_cons_of_mem _ hs))
  rw [compactSequence, compactSequence, compactAllInside_eq_map, compactAllInside_eq_map,
    mergeRuns_compactInside_append hrun hends, hothers,
    compactInside_of_mergeable (hrun first List.mem_cons_self)]

/-- A conditional or a loop holds its compacted branches, first the one without alternates. -/
theorem compactInside_eq_branches {s : Statement} (h : s.kind.isBranching = true) :
    s.compactInside =
      { s with children := compactSequence (s.branch false) ++ compactSequence (s.branch true) } := by
  have hshown : s.compactInside.shownChildren = s.compactInside.children :=
    shownChildren_of_branching (by rwa [compactInside_kind])
  have hchildren := shownChildren_compactInside s
  rw [hshown, ← compactAllInside_eq_map, ← compactAllInside_eq_map] at hchildren
  rw [compactSequence, compactSequence, ← hchildren, compactInside_of_branching h]

/-! ## What compaction is -/

/-- The second sequence is what the first one is compacted to. -/
inductive Compacted : List Statement → List Statement → Prop where
  | nil : Compacted [] []
  /-- A run of mergeable statements that cannot go on: its first statement stays, with the texts of all of
  them, a line each. -/
  | run {first : Statement} {others rest out : List Statement}
    (hrun : ∀ s ∈ first :: others, s.kind.isMergeable = true)
    (hends : ∀ s ∈ rest.head?, s.kind.isMergeable = false) (hrest : Compacted rest out) :
    Compacted (first :: others ++ rest) (fuse first others :: out)
  | returning {s : Statement} {rest out : List Statement} (hs : s.kind = .returning)
    (hrest : Compacted rest out) : Compacted (s :: rest) (s :: out)
  /-- A conditional or a loop: the children that are no alternates, compacted, and then the alternates,
  compacted. -/
  | branching {s : Statement} {primary alternate rest out : List Statement}
    (hs : s.kind.isBranching = true)
    (hprimary : Compacted (s.children.filter fun child => !child.isAlternate) primary)
    (halternate : Compacted (s.children.filter fun child => child.isAlternate) alternate)
    (hrest : Compacted rest out) :
    Compacted (s :: rest) ({ s with children := primary ++ alternate } :: out)

theorem filter_children_eq_branch {s : Statement} (h : s.kind.isBranching = true) :
    (s.children.filter fun child => !child.isAlternate) = s.branch false ∧
      (s.children.filter fun child => child.isAlternate) = s.branch true := by
  rw [branch, branch, shownChildren_of_branching h]
  simp

theorem isMergeable_of_isBranching {kind : Kind} (h : kind.isBranching = true) :
    kind.isMergeable = false := by
  revert h
  cases kind <;> decide

theorem isBranching_or_returning {kind : Kind} (h : kind.isMergeable = false) :
    kind.isBranching = true ∨ kind = .returning := by
  revert h
  cases kind <;> decide

theorem compacted_compactSequence (statements : List Statement) :
    Compacted statements (compactSequence statements) := by
  induction statements using block_induction with
  | nil => exact .nil
  | single s rest hs hfalse htrue hrest =>
    rw [compactSequence_cons hs]
    rcases isBranching_or_returning hs with hbranching | hreturning
    · obtain ⟨hprimary, halternate⟩ := filter_children_eq_branch hbranching
      rw [compactInside_eq_branches hbranching]
      exact .branching hbranching (hprimary ▸ hfalse) (halternate ▸ htrue) hrest
    · rw [compactInside_of_returning hreturning]
      exact .returning hreturning hrest
  | run first others rest hrun hends hrest =>
    rw [compactSequence_append hrun hends]
    exact .run hrun hends hrest

theorem Compacted.eq {statements out : List Statement} (h : Compacted statements out) :
    out = compactSequence statements := by
  induction h with
  | nil => rfl
  | run hrun hends _ ih => rw [compactSequence_append hrun hends, ← ih]
  | returning hs _ ih =>
    rw [compactSequence_cons (by rw [hs]; rfl), compactInside_of_returning hs, ← ih]
  | branching hs _ _ _ ihPrimary ihAlternate ihRest =>
    obtain ⟨hprimary, halternate⟩ := filter_children_eq_branch hs
    rw [compactSequence_cons (isMergeable_of_isBranching hs), compactInside_eq_branches hs,
      ← hprimary, ← halternate, ← ihPrimary, ← ihAlternate, ← ihRest]

theorem compacted_iff {statements out : List Statement} :
    Compacted statements out ↔ out = compactSequence statements :=
  ⟨Compacted.eq, fun h => h ▸ compacted_compactSequence statements⟩

/-! ## Compacting twice -/

/-- What comes first in a sequence keeps its kind. -/
theorem Compacted.head_kind {statements out : List Statement} (h : Compacted statements out) :
    ∀ s ∈ out.head?, ∃ t ∈ statements.head?, s.kind = t.kind := by
  cases h with
  | nil => rintro s ⟨⟩
  | run | returning | branching =>
    rintro s ⟨⟩
    exact ⟨_, rfl, rfl⟩

theorem head_compactSequence_not_mergeable {rest : List Statement}
    (h : ∀ s ∈ rest.head?, s.kind.isMergeable = false) :
    ∀ s ∈ (compactSequence rest).head?, s.kind.isMergeable = false := by
  intro s hs
  obtain ⟨t, ht, hkind⟩ := (compacted_compactSequence rest).head_kind s hs
  rw [hkind]
  exact h t ht

/-- Compacting a branch of a compacted statement is compacting a compacted branch. -/
theorem compactInside_compactInside {s : Statement}
    (hbranch : ∀ alternate,
      compactSequence (compactSequence (s.branch alternate)) = compactSequence (s.branch alternate)) :
    s.compactInside.compactInside = s.compactInside := by
  cases hs : s.kind.isBranching with
  | false => rw [compactInside_of_not_branching hs, compactInside_of_not_branching hs]
  | true =>
    have hagain (alternate : Bool) : compactSequence (s.compactInside.branch alternate) =
        compactSequence (s.branch alternate) := by
      rw [branch_compactInside, ← compactAllInside_eq_map]
      exact hbranch alternate
    rw [compactInside_eq_branches (s := s.compactInside) (by rwa [compactInside_kind]), hagain, hagain,
      compactInside_eq_branches hs]

theorem compactSequence_compactSequence (statements : List Statement) :
    compactSequence (compactSequence statements) = compactSequence statements := by
  induction statements using block_induction with
  | nil => rfl
  | single s rest hs hfalse htrue hrest =>
    have hinside : s.compactInside.compactInside = s.compactInside :=
      compactInside_compactInside (Bool.forall_bool.mpr ⟨hfalse, htrue⟩)
    rw [compactSequence_cons hs, compactSequence_cons (by rwa [compactInside_kind]), hinside, hrest]
  | run first others rest hrun hends hrest =>
    -- The block is a run of its own: what follows it cannot be merged into it.
    have hblock : ∀ s ∈ [fuse first others], s.kind.isMergeable = true := by
      simpa [fuse] using hrun first List.mem_cons_self
    have hagain := compactSequence_append hblock (head_compactSequence_not_mergeable hends)
    rw [compactSequence_append hrun hends]
    rwa [fuse_nil, hrest] at hagain

theorem compact_compact (s : Statement) : s.compact.compact = s.compact := by
  rw [compact, compact, compactSequence_compactSequence]

/-! ## Programs -/

theorem compactFunction_compactFunction (s : Statement) :
    s.compactFunction.compactFunction = s.compactFunction := by
  unfold compactFunction
  by_cases h : s.kind = .function
  · rw [if_pos h, if_pos (show s.compact.kind = .function from h), compact_compact]
  · rw [if_neg h, if_neg h]

theorem compactProgram_compactProgram (root : Statement) :
    root.compactProgram.compactProgram = root.compactProgram := by
  have hfunctions : root.compactProgram.functions.isEmpty = root.functions.isEmpty := by
    rw [functions_compactProgram, List.isEmpty_map]
  rw [compactProgram, hfunctions, compactProgram]
  split
  · exact compact_compact root
  · simp only [List.map_map, Function.comp_def, compactFunction_compactFunction]

/-- Compaction is the grouping of longest runs of mergeable statements, in a sequence and in all branches
inside it, and compacting twice is the same as compacting once, for a statement and for a program. -/
theorem compaction_groups_runs :
    (∀ statements out : List Statement, Compacted statements out ↔ out = compactSequence statements) ∧
      (∀ s : Statement, s.compact.compact = s.compact) ∧
      ∀ root : Statement, root.compactProgram.compactProgram = root.compactProgram :=
  ⟨fun _ _ => compacted_iff, compact_compact, compactProgram_compactProgram⟩

end FlowPath.Statement
