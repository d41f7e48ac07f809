import FlowPath.Proofs.Graph.Highlight
import FlowPath.Proofs.Path.Shape
import FlowPath.Proofs.Statement.Blocks

/-!
# The marks of blocks

A block has the mark of the first statement that was merged into it, and nothing is left of the other
marks. Nothing is lost by that: blocks lie within one branch, and a walk marks all statements of a
branch or none, however often it comes by (`MarksFit.markedAlike_branch`). So the mark of a node in the
graph is the mark of every statement behind it (`annotate_blocks`).
-/

namespace FlowPath

open Statement (MarkedAlike MarksFit RolesFit StandsFor blocks shownAll)

/-- Where the roles of the children fit, every branch is marked as a whole or not at all. -/
theorem Statement.MarksFit.markedAlike_branch {s : Statement} (h : s.MarksFit) (hroles : s.RolesFit)
    (alternate : Bool) : MarkedAlike (s.branch alternate) := by
  cases hs : s.onPath with
  | false =>
    have hblank : ∀ c ∈ s.branch alternate, c.onPath = false := fun c hc =>
      (h.below hs c (mem_children_of_mem_branch hc).1).self
    exact fun c hc d hd => (hblank c hc).trans (hblank d hd).symm
  | true =>
    have hgroup (role : Role) (hrole : ∀ c ∈ s.branch alternate, c.role = some role)
        (hmarks : s.AllMarked role ∨ s.NoneMarked role) : MarkedAlike (s.branch alternate) := by
      have hin : ∀ c ∈ s.branch alternate, c ∈ s.childrenWithRole role := fun c hc =>
        mem_childrenWithRole.mpr ⟨(mem_children_of_mem_branch hc).1, hrole c hc⟩
      rcases hmarks with hmarks | hmarks <;>
      · exact fun c hc d hd => (hmarks c (hin c hc)).trans (hmarks d (hin d hd)).symm
    cases hk : s.kind with
    | conditional =>
      obtain ⟨hconsequent, halternate, -⟩ := h.conditional hs hk
      cases alternate with
      | true =>
        refine hgroup .alternate (fun c hc => ?_) halternate
        simpa [isAlternate] using (mem_children_of_mem_branch hc).2
      | false =>
        refine hgroup .consequent (fun c hc => ?_) hconsequent
        obtain ⟨hchild, hnot⟩ := mem_children_of_mem_branch hc
        refine ((hroles c hchild).1 hk).resolve_right fun hrole => ?_
        simp [isAlternate, hrole] at hnot
    | loop =>
      exact hgroup .body (fun c hc => (hroles c (mem_children_of_mem_branch hc).1).2 hk) (h.loop hs hk).1
    | function | assignment | returning | other =>
      simp [MarkedAlike, branch, shownChildren, hk, Kind.isBranching]

namespace Graph

/-- Every block of the graph tells the truth about the statements that were merged into it. In a program
without marks whose branches and bodies have the roles for it, after a walk that ends well, under any
inputs and options, and for any function that is drawn of the compacted program: the nodes of the graph
are those of the shown statements, and each of these has the texts of the statements behind it, line by
line, and the mark that every one of them has. Every statement of the function that a graph can show
stands behind one of them. -/
theorem annotate_blocks (options : WalkOptions) (inputs : List Value)
    (program marked function : Statement) (summary : Summary) (name : Option String)
    (hroot : program.kind = .other ∨ program.kind = .function)
    (hblank : program.Everywhere fun s => s.onPath = false) (hroles : program.Everywhere RolesFit)
    (h : Path.annotate options inputs program = (marked, .ok summary))
    (hselect : marked.compactProgram.select? name = some function) :
    (ofFunction function).nodes = (shownAll function.children).mapIdx nodeOf ∧
      ∃ original, marked.select? name = some original ∧
        (blocks original.children).flatten.Perm (shownAll original.children) ∧
        List.Forall₂ (fun block merged => StandsFor block merged ∧ ∀ s ∈ merged, s.onPath = block.onPath)
          (shownAll function.children) (blocks original.children) := by
  obtain ⟨htraced, hsame⟩ := Path.traced_annotate hblank h
  have hkind : marked.kind = program.kind := by
    rw [← Statement.unmarked_kind, ← hsame, Statement.unmarked_kind]
  have hfit := hroles.of_alike (fun _ _ => Statement.rolesFit_of_alike) hsame
  rw [Statement.select?_compactProgram] at hselect
  obtain ⟨original, horiginal, rfl⟩ := Option.map_eq_some_iff.mp hselect
  obtain ⟨hsequence, hran, hfits⟩ := Statement.traced_of_select (hkind ▸ hroot) htraced hfit horiginal
  refine ⟨nodes_ofFunction _, original, horiginal, Statement.blocks_perm _, ?_⟩
  -- The function's own statements all ran, and every branch below them ran as a whole or not at all.
  have hself : MarkedAlike original.children := fun s hs t ht =>
    (hran.inside hsequence s hs).marked.trans (hran.inside hsequence t ht).marked.symm
  have hbranches : original.Everywhere fun s => ∀ alternate, MarkedAlike (s.branch alternate) :=
    (hran.marksFit.and hfits).imp fun s ⟨hmarks, hroles⟩ => hmarks.markedAlike_branch hroles
  have halike := Statement.markedAlike_blocks hself hbranches.inside
  have hblocks : List.Forall₂ (flip Statement.StandsFor) (blocks original.children) _ :=
    (Statement.standsFor_blocks original.children).flip
  refine (((List.forall₂_and_left _ _).mpr ⟨halike, hblocks⟩).imp ?_).flip
  intro merged block ⟨hmerged, hblock⟩
  exact ⟨hblock, hblock.onPath_eq hmerged⟩

/-- Runs in a function, in the body of a loop and in both branches of a conditional, one of which is
never taken. -/
def branchRuns : Statement :=
  .program [.function "function f(go)"
    [.plain "a()", .assignment "let x",
     .whileLoop "go"
      [.conditional "go" [.assignment "go = false", .plain "b()"] [.plain "c()", .plain "d()"],
       .plain "e()", .plain "g()"],
     .returning "return x"]]

theorem annotate_blocks_branchRuns :
    ∃ marked summary function, Path.annotate {} [.boolean true] branchRuns = (marked, .ok summary) ∧
      marked.compactProgram.select? none = some function ∧
      (shownAll function.children).map (fun block => (block.text, block.onPath)) =
        [("a()\nlet x", true), ("go", true), ("go", true), ("go = false\nb()", true),
          ("c()\nd()", false), ("e()\ng()", true), ("return x", true)] ∧
      (ofFunction function).nodes = (shownAll function.children).mapIdx nodeOf ∧
      ∃ original, marked.select? none = some original ∧
        (blocks original.children).flatten.Perm (shownAll original.children) ∧
        List.Forall₂ (fun block merged => StandsFor block merged ∧ ∀ s ∈ merged, s.onPath = block.onPath)
          (shownAll function.children) (blocks original.children) := by
  obtain ⟨marked, summary, hmarked, hseen⟩ := Path.exists_annotate_eq {} [.boolean true] branchRuns
    (fun marked _ => (marked.compactProgram.select? none).map fun function =>
      (shownAll function.children).map fun block => (block.text, block.onPath))
    (some [("a()\nlet x", true), ("go", true), ("go", true), ("go = false\nb()", true),
      ("c()\nd()", false), ("e()\ng()", true), ("return x", true)])
    (by rw [Path.annotate_eq_fresh]; decide +kernel)
  obtain ⟨function, hselect, hshown⟩ := Option.map_eq_some_iff.mp hseen
  exact ⟨marked, summary, function, hmarked, hselect, hshown,
    annotate_blocks {} _ branchRuns marked function summary none (.inl rfl) (by decide) (by decide)
      hmarked hselect⟩

end Graph

end FlowPath
