import FlowPath.Proofs.Path.Trace

/-!
# The shape of the marked set

What the marks of a run look like from the outside, statement by statement (`MarksFit`): nothing is
marked below a statement without a mark, sequences are marked as a whole, and the branches of a
conditional and the body of a loop are marked all together or not at all. `Traced.marksFit` reads this
off a run, whatever its loops did, and `annotate_marksFit` says it of every program whose path was
found.

That sequences are marked as a whole holds of functions with a return in their middle too. A return
does not end its function, and what follows it runs and is marked (`annotate_after_return`).
-/

namespace FlowPath

namespace Statement

/-- All children that play the role are marked. -/
def AllMarked (s : Statement) (role : Role) : Prop :=
  ∀ child ∈ s.childrenWithRole role, child.onPath = true

/-- No child that plays the role is marked. -/
def NoneMarked (s : Statement) (role : Role) : Prop :=
  ∀ child ∈ s.childrenWithRole role, child.onPath = false

/-- The marks of the children go with the mark and the kind of the statement. -/
structure MarksFit (s : Statement) : Prop where
  below : s.onPath = false → ∀ child ∈ s.children, child.Everywhere (·.onPath = false)
  sequence : s.onPath = true → s.kind = .function ∨ s.kind = .returning ∨ s.kind = .other →
    ∀ child ∈ s.children, child.onPath = true
  conditional : s.onPath = true → s.kind = .conditional →
    (s.AllMarked .consequent ∨ s.NoneMarked .consequent) ∧
      (s.AllMarked .alternate ∨ s.NoneMarked .alternate) ∧
      (s.AllMarked .consequent ∨ s.AllMarked .alternate) ∧
      ∀ child ∈ s.children, child.role = none ∨ child.role = some .body → child.onPath = false
  loop : s.onPath = true → s.kind = .loop →
    (s.AllMarked .body ∨ s.NoneMarked .body) ∧
      ∀ child ∈ s.children, child.role ≠ some .body → child.onPath = false
  assignment : s.kind = .assignment → ∀ child ∈ s.children, child.onPath = false

/-- A sequence with a mark in it is marked as a whole. -/
theorem MarksFit.sequence_of_child {s child : Statement} (h : s.MarksFit)
    (hkind : s.kind = .function ∨ s.kind = .returning ∨ s.kind = .other) (hchild : child ∈ s.children)
    (hmarked : child.onPath = true) : ∀ c ∈ s.children, c.onPath = true := by
  cases hs : s.onPath with
  | true => exact h.sequence hs hkind
  | false =>
    have hblank : child.onPath = false := (h.below hs child hchild).self
    exact absurd (hblank.symm.trans hmarked) Bool.false_ne_true

theorem mem_childrenWithRole {s child : Statement} {role : Role} :
    child ∈ s.childrenWithRole role ↔ child ∈ s.children ∧ child.role = some role := by
  simp [childrenWithRole]

/-! ## From runs to shapes -/

section Run

variable {s : Statement} {ran : Option Role → Bool}

theorem TracedAll.onPath_eq (h : TracedAll ran s.children) :
    ∀ child ∈ s.children, child.onPath = ran child.role := by
  intro child hc
  obtain ⟨hrun, hleft⟩ := h child hc
  cases hr : ran child.role with
  | true => exact (hrun hr).marked
  | false => exact (hleft hr).self

theorem TracedAll.allMarked (h : TracedAll ran s.children) {role : Role} (hr : ran (some role) = true) :
    s.AllMarked role := by
  intro child hchild
  obtain ⟨hc, hrole⟩ := mem_childrenWithRole.mp hchild
  rw [h.onPath_eq child hc, hrole, hr]

theorem TracedAll.allMarked_or_noneMarked (h : TracedAll ran s.children) (role : Role) :
    s.AllMarked role ∨ s.NoneMarked role := by
  cases hr : ran (some role) with
  | true => exact .inl (h.allMarked hr)
  | false =>
    refine .inr fun child hchild => ?_
    obtain ⟨hc, hrole⟩ := mem_childrenWithRole.mp hchild
    rw [h.onPath_eq child hc, hrole, hr]

/-- A marked statement whose children have the marks of a run. -/
theorem marksFit_of_tracedAll (hmarked : s.onPath = true) (hkind : RunBy s.kind ran)
    (h : TracedAll ran s.children) : s.MarksFit where
  below hs := by rw [hmarked] at hs; cases hs
  sequence _ hk child hc := by
    rw [h.onPath_eq child hc]
    rcases hk with hk | hk | hk <;> rw [hk] at hkind <;> exact hkind child.role
  conditional _ hk := by
    rw [hk] at hkind
    obtain ⟨htaken, hnone, hbody⟩ := hkind
    refine ⟨h.allMarked_or_noneMarked _, h.allMarked_or_noneMarked _,
      htaken.imp h.allMarked h.allMarked, fun child hc hrole => ?_⟩
    rw [h.onPath_eq child hc]
    rcases hrole with hrole | hrole <;> rw [hrole]
    · exact hnone
    · exact hbody
  loop _ hk := by
    rw [hk] at hkind
    refine ⟨h.allMarked_or_noneMarked _, fun child hc hrole => ?_⟩
    rw [h.onPath_eq child hc]
    exact Bool.eq_false_iff.mpr fun hran => hrole (hkind child.role hran)
  assignment hk child hc := by
    rw [hk] at hkind
    rw [h.onPath_eq child hc]
    exact hkind child.role

end Run

theorem Blank.marksFit {s : Statement} (h : s.Blank) : s.Everywhere MarksFit := by
  induction s with
  | node kind text role onPath children ih =>
    have hself : onPath = false := h.self
    have hunmarked : onPath ≠ true := by rw [hself]; exact Bool.false_ne_true
    refine .intro ?_ fun child hc => ih child hc (h.inside child hc)
    exact
      { below := fun _ => h.inside
        sequence := fun hmarked => absurd hmarked hunmarked
        conditional := fun hmarked => absurd hmarked hunmarked
        loop := fun hmarked => absurd hmarked hunmarked
        assignment := fun _ child hc => (h.inside child hc).self }

theorem Traced.marksFit {s : Statement} (h : s.Traced) : s.Everywhere MarksFit := by
  induction s with
  | node kind text role onPath children ih =>
    obtain ⟨hmarked, ran, hkind, hall⟩ := traced_iff.mp h
    refine .intro (marksFit_of_tracedAll hmarked hkind hall) fun child hc => ?_
    -- A child that ran is traced itself, and one that did not has no marks at all.
    cases hr : ran child.role with
    | true => exact ih child hc ((hall child hc).1 hr)
    | false => exact ((hall child hc).2 hr).marksFit

end Statement

namespace Path

open Statement (MarksFit)

/-- The shape of the marked set. In a program that had no marks, after a walk that ends well, under any
inputs and options: the root is marked, and the marks of the children of every statement go with its
own mark and kind. -/
theorem annotate_marksFit (options : WalkOptions) (inputs : List Value) (tree marked : Statement)
    (summary : Summary) (hblank : tree.Everywhere fun s => s.onPath = false)
    (h : annotate options inputs tree = (marked, .ok summary)) :
    marked.onPath = true ∧ marked.Everywhere MarksFit := by
  obtain ⟨htraced, -⟩ := traced_annotate hblank h
  exact ⟨htraced.marked, htraced.marksFit⟩

/-- A loop that is cut off after its conditional took a branch in each of two rounds, a conditional that
takes an empty branch, and an assignment with a statement below it. -/
def cutLoop : Statement :=
  .program [.function "function f(more)"
    [.whileLoop "true"
      [.conditional "more" [.assignment "more = false"]
        [.conditional "more" [.plain "a()"] [.plain "b()"]]],
     .conditional "more" [.plain "c()", .plain "d()"] [],
     (Statement.assignment "let x").withChildren [.plain "e()"]]]

theorem annotate_marksFit_cutLoop :
    cutLoop.Everywhere (fun s => s.onPath = false) ∧
      ∃ marked summary, annotate { unrollBudget := 1 } [.boolean true] cutLoop = (marked, .ok summary) ∧
        (summary.truncated.map (·.condition) = ["true"] ∧
          (marked.outline 0).map (·.2.onPath) =
            [true, true, true, true, true, true, false, true, true, false, false, true, false]) ∧
        marked.onPath = true ∧ marked.Everywhere MarksFit := by
  have hblank : cutLoop.Everywhere fun s => s.onPath = false := by decide
  obtain ⟨marked, summary, hmarked, hseen⟩ :=
    exists_annotate_eq { unrollBudget := 1 } [.boolean true] cutLoop
      (fun marked summary =>
        (summary.truncated.map (·.condition), (marked.outline 0).map (·.2.onPath)))
      (["true"], [true, true, true, true, true, true, false, true, true, false, false, true, false])
      (by rw [annotate_eq_fresh]; decide +kernel)
  exact ⟨hblank, marked, summary, hmarked, Prod.mk.inj hseen,
    annotate_marksFit _ _ cutLoop marked summary hblank hmarked⟩

/-! ## Returns -/

/-- No statement that follows a return on the path lies on the path. -/
def EndsAtReturn (function : Statement) : Prop :=
  ∀ before r after, function.children = before ++ r :: after → r.kind = .returning →
    r.onPath = true → ∀ s ∈ after, s.onPath = false

/-- What follows a return in its function runs as well. In a program that had no marks, after a walk
that ends well, wherever a function has a return on the path among its statements: all statements after
the return are marked, and so the return ends its function if and only if nothing follows it. -/
theorem annotate_after_return (options : WalkOptions) (inputs : List Value) (tree marked : Statement)
    (summary : Summary) (hblank : tree.Everywhere fun s => s.onPath = false)
    (h : annotate options inputs tree = (marked, .ok summary)) :
    tree.unmarked = marked.unmarked ∧
      marked.Everywhere fun function => function.kind = .function →
        ∀ before r after, function.children = before ++ r :: after → r.kind = .returning →
          r.onPath = true →
            (∀ s ∈ after, s.onPath = true) ∧ ((∀ s ∈ after, s.onPath = false) ↔ after = []) := by
  obtain ⟨htraced, hsame⟩ := traced_annotate hblank h
  refine ⟨hsame, htraced.marksFit.imp ?_⟩
  intro function hfit hkind before r after hchildren _ hreturn
  have hr : r ∈ function.children := by rw [hchildren]; simp
  have hrun : ∀ s ∈ after, s.onPath = true := fun s hs =>
    hfit.sequence_of_child (.inl hkind) hr hreturn s (by rw [hchildren]; simp [hs])
  refine ⟨hrun, fun hnone => ?_, fun hnil => by rw [hnil]; exact nofun⟩
  refine List.eq_nil_iff_forall_not_mem.mpr fun s hs => ?_
  exact absurd ((hnone s hs).symm.trans (hrun s hs)) Bool.false_ne_true

/-- A function with a statement after its return, all marked or all without marks. -/
def afterReturn (onPath : Bool) : Statement :=
  let function : Statement :=
    { kind := .function
      text := "function f()"
      role := none
      onPath
      children :=
        [{ Statement.returning "return 1" with onPath }, { Statement.plain "after()" with onPath }] }
  { Statement.program [function] with onPath }

theorem annotate_afterReturn :
    annotate {} [] (afterReturn false) = (afterReturn true, .ok { bindings := [], truncated := [] }) := by
  rw [annotate_eq_fresh]
  rfl

theorem annotate_after_return_plain :
    (afterReturn false).Everywhere (fun s => s.onPath = false) ∧
      annotate {} [] (afterReturn false) = (afterReturn true, .ok { bindings := [], truncated := [] }) ∧
      ∃ function ∈ (afterReturn true).functions, ∃ r after, function.children = r :: after ∧
        r.kind = .returning ∧ r.onPath = true ∧ after.map (·.text) = ["after()"] ∧
        (∀ s ∈ after, s.onPath = true) ∧ ((∀ s ∈ after, s.onPath = false) ↔ after = []) := by
  have hblank : (afterReturn false).Everywhere fun s => s.onPath = false := by decide
  obtain ⟨-, hfunctions⟩ := annotate_after_return {} [] _ _ _ hblank annotate_afterReturn
  have hfunction := (hfunctions.inside _ List.mem_cons_self).self
  exact ⟨hblank, annotate_afterReturn, _, List.mem_cons_self, _, _, rfl, rfl, rfl, rfl,
    hfunction rfl [] _ _ rfl rfl rfl⟩

/-- A return on the path does not always end its function. -/
theorem not_annotate_endsAtReturn :
    ¬ ∀ (options : WalkOptions) (inputs : List Value) (tree marked : Statement) (summary : Summary),
      tree.Everywhere (fun s => s.onPath = false) →
      annotate options inputs tree = (marked, .ok summary) →
        marked.Everywhere fun function => function.kind = .function → EndsAtReturn function := by
  intro h
  have hends := h {} [] _ _ _ (by decide) annotate_afterReturn
  have hfunction := (hends.inside _ List.mem_cons_self).self rfl
  have hafter := hfunction [] _ _ rfl rfl rfl _ List.mem_cons_self
  exact absurd hafter (by decide)

end Path

end FlowPath
