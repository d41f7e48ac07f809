import Mathlib.Data.List.Forall2
import Mathlib.Data.List.SplitBy
import FlowPath.Proofs.Statement.Compact
import FlowPath.Proofs.Statement.Marks

/-!
# What is merged into a block

`blocks` lists, for every statement that a graph shows of a compacted sequence, the statements that
were merged into it. It does not go by the compacted sequence but cuts the sequence itself, and every
branch in it, into longest runs of mergeable statements and the statements between them. The lists come
in the order of the blocks (`standsFor_blocks`), each lies in one branch, and together they have every
statement that a graph shows of the sequence once (`blocks_perm`).
-/

namespace FlowPath.Statement

/-- Longest runs of mergeable statements, and other statements alone. Every statement comes with the
blocks that are shown inside it, which follow its own block. -/
def blocksOf (opened : List (Statement × List (List Statement))) : List (List Statement) :=
  (opened.splitBy fun s next => s.1.kind.isMergeable && next.1.kind.isMergeable).flatMap fun run =>
    run.map (·.1) :: run.flatMap (·.2)

mutual

/-- The blocks of the branches of a statement. -/
def blocksInside : Statement → List (List Statement)
  | ⟨kind, _, _, _, children⟩ =>
    if kind.isBranching then
      blocksOf ((openAll children).filter fun child => !child.1.isAlternate) ++
        blocksOf ((openAll children).filter fun child => child.1.isAlternate)
    else []

/-- The statements of a sequence, each with the blocks of its branches. -/
def openAll : List Statement → List (Statement × List (List Statement))
  | [] => []
  | s :: rest => (s, blocksInside s) :: openAll rest

end

/-- The blocks that are shown of a sequence when it is compacted, in their order, each as the list of
the statements that are merged into it. -/
def blocks (statements : List Statement) : List (List Statement) := blocksOf (openAll statements)

/-! ## Blocks run by run -/

theorem openAll_eq_map (statements : List Statement) :
    openAll statements = statements.map fun s => (s, blocksInside s) := by
  induction statements with
  | nil => rfl
  | cons s rest ih => rw [openAll, ih]; rfl

theorem blocks_nil : blocks [] = [] := rfl

theorem blocksInside_eq (s : Statement) :
    blocksInside s = blocks (s.branch false) ++ blocks (s.branch true) := by
  obtain ⟨kind, text, role, onPath, children⟩ := s
  cases hk : kind.isBranching with
  | false => simp [blocksInside, branch, shownChildren, hk, blocks_nil]
  | true =>
    simp [blocksInside, branch, shownChildren, hk, blocks, openAll_eq_map, List.filter_map,
      Function.comp_def]

/-- Statements that are merged with each other, and not with what follows, are one block. The blocks
inside them come next. -/
theorem blocks_group {group rest : List Statement} (hgroup : group ≠ [])
    (hchain : group.IsChain fun s next => (s.kind.isMergeable && next.kind.isMergeable) = true)
    (hends : ∀ s ∈ group.getLast?, ∀ next ∈ rest.head?,
      (s.kind.isMergeable && next.kind.isMergeable) = false) :
    blocks (group ++ rest) = group :: (group.flatMap blocksInside ++ blocks rest) := by
  let opened := fun s : Statement => (s, blocksInside s)
  have hmapped : (group.map opened).IsChain
      fun s next => (s.1.kind.isMergeable && next.1.kind.isMergeable) = true :=
    (List.isChain_map opened).mpr hchain
  have hapart : ∀ s ∈ (group.map opened).getLast?, ∀ next ∈ (rest.map opened).head?,
      (s.1.kind.isMergeable && next.1.kind.isMergeable) = false := by
    simpa [opened] using hends
  have hboth : blocksOf (group.map opened ++ rest.map opened) =
      blocksOf (group.map opened) ++ blocksOf (rest.map opened) := by
    rw [blocksOf, List.splitBy_append hapart, List.flatMap_append]
    rfl
  have hone : blocksOf (group.map opened) = group :: group.flatMap blocksInside := by
    rw [blocksOf, List.splitBy_of_isChain (by simpa using hgroup) hmapped]
    simp [opened, List.flatMap_map, Function.comp_def]
  rw [blocks, openAll_eq_map, List.map_append, hboth, hone, blocks, openAll_eq_map, List.cons_append]

/-- A statement that cannot share a block is a block of its own. -/
theorem blocks_cons {s : Statement} {rest : List Statement} (h : s.kind.isMergeable = false) :
    blocks (s :: rest) = [s] :: (blocks (s.branch false) ++ blocks (s.branch true) ++ blocks rest) := by
  have hblocks : blocks ([s] ++ rest) = _ :=
    blocks_group (List.cons_ne_nil s []) (.singleton s) (by simp [h])
  rwa [List.flatMap_singleton, blocksInside_eq] at hblocks

/-- A longest run of mergeable statements is one block, and nothing is shown inside it. -/
theorem blocks_append {first : Statement} {others rest : List Statement}
    (hrun : ∀ s ∈ first :: others, s.kind.isMergeable = true)
    (hrest : ∀ s ∈ rest.head?, s.kind.isMergeable = false) :
    blocks (first :: others ++ rest) = (first :: others) :: blocks rest := by
  have hchain : (first :: others).IsChain
      fun s next => (s.kind.isMergeable && next.kind.isMergeable) = true :=
    (List.pairwise_of_forall_mem_list fun s hs next hnext => by
      rw [hrun s hs, hrun next hnext]; rfl).isChain
  have hinside : (first :: others).flatMap blocksInside = [] := by
    refine List.flatMap_eq_nil_iff.mpr fun s hs => ?_
    simp [blocksInside_eq, branch, shownChildren_of_mergeable (hrun s hs), blocks_nil]
  have hblocks := blocks_group (List.cons_ne_nil first others) hchain
    fun s _ next hnext => by rw [hrest next hnext, Bool.and_false]
  rwa [hinside, List.nil_append] at hblocks

/-! ## Blocks and the compacted sequence -/

/-- The block has the texts of the statements, a line each, and otherwise looks like the first one. -/
structure StandsFor (block : Statement) (merged : List Statement) : Prop where
  text : block.text = "\n".intercalate (merged.map (·.text))
  first : ∃ first ∈ merged.head?,
    block.kind = first.kind ∧ block.role = first.role ∧ block.onPath = first.onPath

theorem standsFor_fuse (first : Statement) (others : List Statement) :
    StandsFor (fuse first.compactInside (others.map compactInside)) (first :: others) where
  text := by simp [fuse, Function.comp_def]
  first := ⟨first, rfl, compactInside_kind first, compactInside_role first, compactInside_onPath first⟩

/-- What a graph shows of a compacted sequence, block by block. -/
theorem standsFor_blocks (statements : List Statement) :
    List.Forall₂ StandsFor (shownAll (compactSequence statements)) (blocks statements) := by
  rw [compactSequence, compactAllInside_eq_map]
  induction statements using block_induction with
  | nil => exact .nil
  | single s rest hs hfalse htrue hrest =>
    rw [mergeRuns_compactInside_cons hs, shownAll_cons, shownChildren_compactInside, shownAll_append,
      blocks_cons hs]
    refine .cons ?_ (List.rel_append (List.rel_append hfalse htrue) hrest)
    simpa using standsFor_fuse s []
  | run first others rest hrun hends hrest =>
    have hhidden : (fuse first.compactInside (others.map compactInside)).shownChildren = [] := by
      refine shownChildren_of_mergeable ?_
      simpa [fuse] using hrun first List.mem_cons_self
    rw [mergeRuns_compactInside_append hrun hends, shownAll_cons, hhidden, shownAll_nil,
      List.nil_append, blocks_append hrun hends]
    exact .cons (standsFor_fuse first others) hrest

theorem shownAll_branches_perm (s : Statement) :
    (shownAll (s.branch false) ++ shownAll (s.branch true)).Perm (shownAll s.shownChildren) := by
  have hsplit : (s.branch false ++ s.branch true).Perm s.shownChildren := by
    have hperm := List.filter_append_perm (fun child => child.isAlternate == false) s.shownChildren
    simpa [branch] using hperm
  rw [← shownAll_append, shownAll_eq_flatMap, shownAll_eq_flatMap]
  exact hsplit.flatMap_right shown

/-- Every statement that a graph shows of the sequence is merged into one block. -/
theorem blocks_perm (statements : List Statement) :
    (blocks statements).flatten.Perm (shownAll statements) := by
  induction statements using block_induction with
  | nil => exact .nil
  | single s rest hs hfalse htrue hrest =>
    rw [blocks_cons hs, shownAll_cons, List.flatten_cons, List.singleton_append, List.flatten_append,
      List.flatten_append]
    exact (((hfalse.append htrue).trans (shownAll_branches_perm s)).append hrest).cons s
  | run first others rest hrun hends hrest =>
    rw [blocks_append hrun hends, List.flatten_cons, shownAll_append, shownAll_of_mergeable hrun]
    exact hrest.append_left _

/-! ## Marks -/

/-- The statements are marked all together or not at all. -/
def MarkedAlike (statements : List Statement) : Prop :=
  ∀ s ∈ statements, ∀ t ∈ statements, s.onPath = t.onPath

theorem MarkedAlike.of_subset {xs ys : List Statement} (h : MarkedAlike ys) (hsub : xs ⊆ ys) :
    MarkedAlike xs :=
  fun s hs t ht => h s (hsub hs) t (hsub ht)

theorem StandsFor.onPath_eq {block : Statement} {merged : List Statement} (h : StandsFor block merged)
    (hmarks : MarkedAlike merged) : ∀ s ∈ merged, s.onPath = block.onPath := by
  obtain ⟨first, hfirst, -, -, hblock⟩ := h.first
  intro s hs
  rw [hblock]
  exact hmarks s hs first (List.mem_of_mem_head? hfirst)

/-- Blocks do not reach from one branch into another, so that what is marked alike in all branches is
marked alike in all blocks. -/
theorem markedAlike_blocks {statements : List Statement} (hself : MarkedAlike statements)
    (hinside : ∀ s ∈ statements, s.Everywhere fun t => ∀ alternate, MarkedAlike (t.branch alternate)) :
    ∀ merged ∈ blocks statements, MarkedAlike merged := by
  induction statements using block_induction with
  | nil => exact nofun
  | single s rest hs hfalse htrue hrest =>
    obtain ⟨hs', hrest'⟩ := List.forall_mem_cons.mp hinside
    have hbelow (alternate : Bool) : ∀ c ∈ s.branch alternate,
        c.Everywhere fun t => ∀ alternate, MarkedAlike (t.branch alternate) := fun c hc =>
      hs'.inside c (mem_children_of_mem_branch hc).1
    rw [blocks_cons hs, List.forall_mem_cons, List.forall_mem_append, List.forall_mem_append]
    refine ⟨?_, ⟨hfalse (hs'.self false) (hbelow false), htrue (hs'.self true) (hbelow true)⟩,
      hrest (hself.of_subset (List.subset_cons_self s rest)) hrest'⟩
    exact hself.of_subset (List.cons_subset_cons s (List.nil_subset rest))
  | run first others rest hrun hends hrest =>
    rw [blocks_append hrun hends, List.forall_mem_cons]
    exact ⟨hself.of_subset (List.subset_append_left _ _),
      hrest (hself.of_subset (List.subset_append_right _ _)) (List.forall_mem_append.mp hinside).2⟩

end FlowPath.Statement
