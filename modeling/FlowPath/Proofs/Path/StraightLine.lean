import FlowPath.Proofs.Path.Lockstep

/-!
# Straight-line code

Code without conditionals and loops is walked from its first statement to its last, and the marks that
it gets do not depend on inputs or options. `markStraight` says which ones they are: everything is
marked but what stands below an assignment, which keeps the marks it had (`walk_straight`). So
straight-line code lies on the path as a whole exactly if nothing without a mark stands below an
assignment (`annotate_straight`).
-/

namespace FlowPath

namespace Statement

mutual

/-- The tree with the marks of a walk that takes all statements one after the other. -/
def markStraight : Statement → Statement
  | ⟨kind, text, role, _, children⟩ =>
    ⟨kind, text, role, true, if kind = .assignment then children else markStraightAll children⟩

def markStraightAll : List Statement → List Statement
  | [] => []
  | s :: rest => markStraight s :: markStraightAll rest

end

theorem markStraightAll_eq_map (statements : List Statement) :
    markStraightAll statements = statements.map markStraight := by
  induction statements with
  | nil => rfl
  | cons s rest ih => rw [markStraightAll, ih]; rfl

theorem markStraight_eq (s : Statement) :
    s.markStraight =
      { s with
        onPath := true
        children := if s.kind = .assignment then s.children else s.children.map markStraight } := by
  obtain ⟨kind, text, role, onPath, children⟩ := s
  rw [markStraight, markStraightAll_eq_map]

/-- What stands below the statement has marks already if the statement is an assignment. -/
def MarkedBelow (s : Statement) : Prop :=
  s.kind = .assignment → ∀ child ∈ s.children, child.Everywhere (·.onPath = true)

theorem markedBelow_of_marked {s : Statement} (h : s.Everywhere (·.onPath = true)) :
    s.Everywhere MarkedBelow := by
  induction s with
  | node kind text role onPath children ih =>
    exact .intro (fun _ => h.inside) fun child hc => ih child hc (h.inside child hc)

theorem everywhere_markStraight {s : Statement} :
    s.markStraight.Everywhere (·.onPath = true) ↔ s.Everywhere MarkedBelow := by
  induction s with
  | node kind text role onPath children ih =>
    rw [markStraight_eq, everywhere_iff, everywhere_iff]
    by_cases hkind : kind = .assignment
    · -- Below an assignment nothing changes, so that all marks must have been there.
      simp only [hkind, if_true, MarkedBelow, true_and, forall_const]
      exact ⟨fun h => ⟨h, fun child hc => markedBelow_of_marked (h child hc)⟩, And.left⟩
    · simp only [hkind, if_false, MarkedBelow, List.forall_mem_map, true_and, false_implies]
      exact forall₂_congr ih

end Statement

namespace Path

open Statement (MarkedBelow markStraight)

variable {μ : Type} {texts : Texts μ} {options : WalkOptions}

/-- Walks through the tree that end well take all statements one after the other. -/
def GoesStraight (texts : Texts μ) (options : WalkOptions) (s : Statement) : Prop :=
  ∀ scope address session, (walk texts options scope address s session).error = none →
    (walk texts options scope address s session).value = s.markStraight

theorem walkAll_straight {l : List Statement} (hl : ∀ s ∈ l, GoesStraight texts options s) {scope : Nat}
    {address : Address} {index : Nat} {session : Session μ}
    (h : (walkAll texts options scope none address index l session).error = none) :
    (walkAll texts options scope none address index l session).value = l.map markStraight := by
  induction l generalizing index session with
  | nil => rw [walkAll_nil]; rfl
  | cons s rest ih =>
    obtain ⟨hs, hrest⟩ := List.forall_mem_cons.mp hl
    have hruns : runs none s = true := rfl
    rcases herror : (walk texts options scope (index :: address) s session).error with _ | e
    · rw [walkAll_run hruns herror] at h ⊢
      simp only [hs _ _ _ herror, ih hrest h, List.map_cons]
    · rw [walkAll_error hruns herror] at h
      cases h

theorem runInside_straight {s : Statement} (hkind : s.kind.isBranching = false)
    (hs : ∀ child ∈ s.children, GoesStraight texts options child) {scope : Nat} {address : Address}
    {session : Session μ} (h : (runInside texts options scope address s session).error = none) :
    (runInside texts options scope address s session).value =
      if s.kind = .assignment then s.children else s.children.map markStraight := by
  revert h
  unfold runInside
  cases hk : s.kind with
  | function =>
    dsimp only
    split
    · exact nofun
    · exact fun h => walkAll_straight hs h
  | assignment =>
    dsimp only
    split
    · exact nofun
    · exact fun _ => rfl
  | conditional | loop => rw [hk] at hkind; cases hkind
  | returning | other => exact fun h => walkAll_straight hs h

theorem walk_straight {s : Statement} (h : s.Everywhere fun t => t.kind.isBranching = false) :
    GoesStraight texts options s := by
  induction s with
  | node kind text role onPath children ih =>
    intro scope address session herror
    by_cases hdepth : options.maxDepth ≤ session.depth
    · rw [walk_tooDeep hdepth] at herror
      cases herror
    · rw [walk_eq hdepth] at herror ⊢
      rw [Statement.markStraight_eq]
      exact congrArg (Statement.mk kind text role true)
        (runInside_straight h.self (fun child hc => ih child hc (h.inside child hc)) herror)

/-- When straight-line code lies on the path as a whole. After a walk that ends well through a program
without conditionals and loops, under any inputs and options and whatever marks there were: every
statement is marked if and only if below every assignment everything was marked before. -/
theorem annotate_straight (options : WalkOptions) (inputs : List Value) (tree marked : Statement)
    (summary : Summary) (hstraight : tree.Everywhere fun s => s.kind.isBranching = false)
    (h : annotate options inputs tree = (marked, .ok summary)) :
    marked.Everywhere (fun s => s.onPath = true) ↔
      tree.Everywhere fun s => s.kind = .assignment →
        ∀ child ∈ s.children, child.Everywhere fun c => c.onPath = true := by
  obtain ⟨herror, hvalue, -⟩ := annotate_eq_ok_iff.mp h
  have hmarked : marked = tree.markStraight := hvalue.symm.trans (walk_straight hstraight _ _ _ herror)
  rw [hmarked]
  exact Statement.everywhere_markStraight

/-- An assignment that declares a variable, with a statement below it. -/
def belowAssignment : Statement :=
  .program [(Statement.assignment "let x").withChildren [.plain "below()"], .returning "return x"]

theorem annotate_straight_belowAssignment :
    belowAssignment.Everywhere (fun s => s.kind.isBranching = false) ∧
      ∃ marked summary, annotate {} [] belowAssignment = (marked, .ok summary) ∧
        (marked.outline 0).map (·.2.onPath) = [true, true, false, true] ∧
        (marked.Everywhere (fun s => s.onPath = true) ↔
          belowAssignment.Everywhere fun s => s.kind = .assignment →
            ∀ child ∈ s.children, child.Everywhere fun c => c.onPath = true) := by
  have hstraight : belowAssignment.Everywhere fun s => s.kind.isBranching = false := by decide
  obtain ⟨marked, summary, hmarked, hmarks⟩ := exists_annotate_eq {} [] belowAssignment
    (fun marked _ => (marked.outline 0).map (·.2.onPath)) [true, true, false, true]
    (by rw [annotate_eq_fresh]; decide +kernel)
  exact ⟨hstraight, marked, summary, hmarked, hmarks,
    annotate_straight {} [] belowAssignment marked summary hstraight hmarked⟩

/-- Straight-line code does not always lie on the path as a whole. -/
theorem not_annotate_straight_marked :
    ¬ ∀ (options : WalkOptions) (inputs : List Value) (tree marked : Statement) (summary : Summary),
      tree.Everywhere (fun s => s.kind.isBranching = false) →
      annotate options inputs tree = (marked, .ok summary) →
        marked.Everywhere fun s => s.onPath = true := by
  intro h
  obtain ⟨marked, summary, hmarked, hnot⟩ := exists_annotate_eq {} [] belowAssignment
    (fun marked _ => decide (marked.Everywhere fun s => s.onPath = true)) false
    (by rw [annotate_eq_fresh]; decide +kernel)
  exact of_decide_eq_false hnot (h {} [] belowAssignment marked summary (by decide) hmarked)

end Path

end FlowPath
