import FlowPath.Proofs.Environment.Locals
import FlowPath.Proofs.Path.NestedLoops
import FlowPath.Proofs.Path.Visits

/-!
# Branches and loops define nothing outside

A statement that is walked in the innermost scope defines nothing in the scopes around it
(`definesInside_walk`): that is so for assignments and parameters, and it passes from the statements of a
sequence to the sequence. A conditional and a loop run their children in a scope of their own, so they define
nothing in the scope they stand in either (`keepsUndefined_walk`). Both hold however the walk ends.
-/

namespace FlowPath

open Environment (KeepsUndefined)

variable {μ α : Type}

namespace Session

/-! ## Single steps -/

theorem test_environment (texts : Texts μ) (condition : String) (scope : Nat) (session : Session μ) :
    (session.test texts condition scope).2.environment = session.environment := by
  unfold test
  split <;> rfl

theorem keepsUndefined_assignParsed {text : String} {parsed : Parsed} {env env' : Environment}
    (hstacked : env.Stacked) (h : assignParsed text parsed env.innermost env = .ok env') :
    KeepsUndefined env.innermost env env' := by
  obtain ⟨name, value, rfl⟩ | ⟨name, index, value, hwrite⟩ | ⟨name, value, rfl⟩ := assignParsed_cases h
  · exact hstacked.keepsUndefined_write name value
  · exact hstacked.keepsUndefined_writeElement hwrite
  · exact hstacked.keepsUndefined_declare name value

theorem keepsUndefined_assign (texts : Texts μ) (text : String) {session : Session μ}
    (hstacked : session.environment.Stacked) :
    KeepsUndefined session.environment.innermost session.environment
      (session.assign texts text session.environment.innermost).2.environment := by
  unfold assign
  split
  · exact .refl _
  · split
    · exact .refl _
    · rename_i hassign
      exact keepsUndefined_assignParsed hstacked hassign

theorem keepsUndefined_bindParameters (options : WalkOptions) (function : String) {scope : Nat}
    (parameters : List String) {session : Session μ} (hstacked : session.environment.Stacked)
    (hscope : session.environment.innermost = scope) :
    KeepsUndefined scope session.environment
      (session.bindParameters options function scope parameters).2.environment := by
  have hdeclared {env : Environment} (name : String) (value : Value) (henv : env.Stacked)
      (hinner : env.innermost = scope) :
      KeepsUndefined scope env (env.declare scope name value) ∧ (env.declare scope name value).Stacked ∧
        (env.declare scope name value).innermost = scope := by
    subst hinner
    have hext := Environment.extends_declare env env.innermost name value
    exact ⟨henv.keepsUndefined_declare name value, henv.of_extends hext, hext.innermost⟩
  fun_induction bindParameters options function scope parameters session with
  | case1 => exact .refl _
  | case2 parameter rest session value inputs hinputs ih =>
    obtain ⟨hkeeps, hstacked', hscope'⟩ := hdeclared parameter value hstacked hscope
    exact hkeeps.trans (ih hstacked' hscope')
  | case3 => exact .refl _
  | case4 parameter rest session hinputs hlenient ih =>
    obtain ⟨hkeeps, hstacked', hscope'⟩ := hdeclared parameter .undefined hstacked hscope
    exact hkeeps.trans (ih hstacked' hscope')

end Session

namespace Path

open Statement (Role)

variable {texts : Texts μ} {options : WalkOptions}

/-- A body that defines nothing in the scopes around its own, wherever that is the innermost one. -/
def DefinesInside (scope : Nat) (body : Session μ → Outcome μ α) : Prop :=
  ∀ session : Session μ, IsInnermost scope session →
    KeepsUndefined scope session.environment (body session).session.environment

/-! ## Scopes of their own -/

section Scope

variable {scope : Nat} {session : Session μ}

/-- What runs in a new scope defines nothing in the scopes that were open before. -/
theorem keepsUndefined_inScope {body : Nat → Session μ → Outcome μ α} (htidy : ∀ inside, Tidy (body inside))
    (hbody : ∀ inside, DefinesInside inside (body inside)) (hinner : IsInnermost scope session) :
    let inside := session.environment.nextScope
    KeepsUndefined (scope + 1) session.environment
      ((body inside (session.enter scope)).session.exit inside).environment := by
  intro inside
  have hentered := hinner.enter
  have hkept := htidy inside (session.enter scope) hentered.stacked.size_pos
  have hkeeps := hbody inside (session.enter scope) hentered
  rw [← hinner.size_eq]
  obtain ⟨hstacked, rfl⟩ := hinner
  exact .exit hstacked hkept.environment hkeeps

variable {parts : LoopParts μ}

theorem keepsUndefined_runBody (htidy : ∀ inside, Tidy (parts.body inside))
    (hbody : ∀ inside, DefinesInside inside (parts.body inside)) (budget : Nat)
    (hinner : IsInnermost parts.scope session) :
    KeepsUndefined (parts.scope + 1) session.environment
      (runBody parts budget session).session.environment := by
  have hfunded : IsInnermost parts.scope { session with budget, rounds := session.rounds + 1 } :=
    ⟨hinner.stacked, hinner.scope_eq⟩
  have hkeeps := keepsUndefined_inScope htidy hbody hfunded
  exact hkeeps

theorem loopRule_keepsUndefined (htidy : ∀ inside, Tidy (parts.body inside))
    (hbody : ∀ inside, DefinesInside inside (parts.body inside))
    (hinner : IsInnermost parts.scope session) :
    LoopRule texts parts
      (fun _ now => session.Keeps now ∧
        KeepsUndefined (parts.scope + 1) session.environment now.environment)
      fun outcome =>
        KeepsUndefined (parts.scope + 1) session.environment outcome.session.environment := by
  have htested {now after : Session μ} {result : Except WalkError Bool}
      (hI : KeepsUndefined (parts.scope + 1) session.environment now.environment)
      (htest : now.test texts parts.condition parts.scope = (result, after)) :
      KeepsUndefined (parts.scope + 1) session.environment after.environment := by
    have hsame := Session.test_environment texts parts.condition parts.scope now
    rw [htest] at hsame
    rwa [hsame]
  have hround {now after : Session μ}
      (hI : session.Keeps now ∧ KeepsUndefined (parts.scope + 1) session.environment now.environment)
      (htest : now.test texts parts.condition parts.scope = (.ok true, after)) (budget : Nat) :
      session.Keeps (runBody parts budget after).session ∧
        KeepsUndefined (parts.scope + 1) session.environment
          (runBody parts budget after).session.environment := by
    have htest' := Session.preserves_test texts parts.condition parts.scope now
    rw [htest] at htest'
    have hkept := hI.1.trans htest'.toKeeps
    have hafter := hinner.of_keeps hkept
    exact ⟨hkept.trans (keeps_runBody htidy budget hafter.stacked.size_pos),
      (htested hI.2 htest).trans (keepsUndefined_runBody htidy hbody budget hafter)⟩
  exact
    { failed := fun hI htest => htested hI.2 htest
      ended := fun hI htest => htested hI.2 htest
      cut := fun _ _ _ _ hI htest => (htested hI.2 htest :)
      broken := fun budget _ _ _ _ hI htest _ => (hround hI htest budget).2
      round := fun budget _ _ _ hI htest _ => hround hI htest budget }

theorem keepsUndefined_runLoop (parts : LoopParts μ) (htidy : ∀ inside, Tidy (parts.body inside))
    (hbody : ∀ inside, DefinesInside inside (parts.body inside))
    (hinner : IsInnermost parts.scope session) (children : List Statement) :
    KeepsUndefined (parts.scope + 1) session.environment
      (runLoop texts options parts children session).session.environment :=
  (loopRule_keepsUndefined htidy hbody hinner).allRounds session.budget 0 ⟨.refl session, .refl _⟩

end Scope

/-! ## Statements -/

theorem definesInside_walkAll {statements : List Statement}
    (h : ∀ s ∈ statements, ∀ scope address, DefinesInside scope (walk texts options scope address s))
    (scope : Nat) (role : Option Role) (address : Address) (index : Nat) :
    DefinesInside scope (walkAll texts options scope role address index statements) := by
  induction statements generalizing index with
  | nil =>
    intro session _
    rw [walkAll_nil]
    exact .refl _
  | cons s rest ih =>
    obtain ⟨hfirst, hrest⟩ := List.forall_mem_cons.mp h
    intro session hinner
    cases hruns : runs role s with
    | false =>
      rw [walkAll_skip hruns]
      exact ih hrest (index + 1) session hinner
    | true =>
      have hwalked := hfirst scope (index :: address) session hinner
      cases herror : (walk texts options scope (index :: address) s session).error with
      | some e =>
        rw [walkAll_error hruns herror]
        exact hwalked
      | none =>
        have hkept := tidy_walk texts options s scope (index :: address) session hinner.stacked.size_pos
        rw [walkAll_run hruns herror]
        exact hwalked.trans (ih hrest (index + 1) _ (hinner.of_keeps hkept.toKeeps))

section Inside

variable {s : Statement} {scope : Nat} {session : Session μ}
  (h : ∀ child ∈ s.children, ∀ scope address, DefinesInside scope (walk texts options scope address child))

include h

/-- A conditional or a loop defines nothing in the scope it stands in. -/
theorem keepsUndefined_runInside (hs : s.kind.isBranching = true) (address : Address)
    (hinner : IsInnermost scope session) :
    KeepsUndefined (scope + 1) session.environment
      (runInside texts options scope address s session).session.environment := by
  have htidy (role : Option Role) (inside : Nat) :
      Tidy (walkAll texts options inside role address 0 s.children) :=
    tidy_sequence texts options inside role address 0 s.children
  have hbody (role : Option Role) (inside : Nat) :
      DefinesInside inside (walkAll texts options inside role address 0 s.children) :=
    definesInside_walkAll h inside role address 0
  unfold runInside
  split <;> rename_i hkind
  · rw [hkind] at hs
    cases hs
  · rw [hkind] at hs
    cases hs
  · have hsame := Session.test_environment texts s.text scope session
    have hkept := Session.preserves_test texts s.text scope session
    split <;> rename_i htest <;> rw [htest] at hsame hkept
    · rw [← hsame]
      exact .refl _
    · rw [← hsame]
      rename_i holds tested
      let taken := some (if holds then Role.consequent else Role.alternate)
      have hkeeps :=
        keepsUndefined_inScope (htidy taken) (hbody taken) (hinner.of_keeps hkept.toKeeps)
      exact hkeeps
  · exact keepsUndefined_runLoop (loopParts texts options scope address s) (htidy (some .body))
      (hbody (some .body)) hinner s.children
  · rw [hkind] at hs
    cases hs
  · rw [hkind] at hs
    cases hs

theorem definesInside_runInside (address : Address) :
    DefinesInside scope (runInside texts options scope address s) := by
  intro session hinner
  have hchildren := definesInside_walkAll h scope none address 0
  cases hs : s.kind.isBranching with
  | true => exact (keepsUndefined_runInside h hs address hinner).mono (Nat.le_succ scope)
  | false =>
    unfold runInside
    split <;> rename_i hkind
    · have hkeeps := Session.keepsUndefined_bindParameters options
        ((Statement.nameInHead? s.text).getD Session.anonymous) (Statement.parameterNames s.text)
        hinner.stacked hinner.scope_eq
      have hkept := Session.preserves_bindParameters options
        ((Statement.nameInHead? s.text).getD Session.anonymous) scope (Statement.parameterNames s.text)
        session
      dsimp only
      split <;> rename_i hbound <;> rw [hbound] at hkeeps hkept
      · exact hkeeps
      · exact hkeeps.trans (hchildren _ (hinner.of_keeps hkept.toKeeps))
    · have hkeeps := Session.keepsUndefined_assign texts s.text hinner.stacked
      rw [hinner.scope_eq] at hkeeps
      split <;> rename_i hassign <;> rw [hassign] at hkeeps <;> exact hkeeps
    · rw [hkind] at hs
      cases hs
    · rw [hkind] at hs
      cases hs
    · exact hchildren session hinner
    · exact hchildren session hinner

end Inside

/-- Whatever is walked defines nothing in the scopes around its own. -/
theorem definesInside_walk (texts : Texts μ) (options : WalkOptions) (s : Statement) (scope : Nat)
    (address : Address) : DefinesInside scope (walk texts options scope address s) := by
  induction s generalizing scope address with
  | node kind text role onPath children ih =>
    intro session hinner
    by_cases hdepth : options.maxDepth ≤ session.depth
    · rw [walk_tooDeep hdepth]
      exact .refl _
    · have hcounted : IsInnermost scope { session with depth := session.depth + 1 } :=
        ⟨hinner.stacked, hinner.scope_eq⟩
      rw [walk_eq hdepth]
      exact definesInside_runInside (s := ⟨kind, text, role, onPath, children⟩) ih address _ hcounted

theorem keepsUndefined_walk {s : Statement} (hs : s.kind.isBranching = true) {scope : Nat}
    (address : Address) {session : Session μ} (hinner : IsInnermost scope session) :
    KeepsUndefined (scope + 1) session.environment
      (walk texts options scope address s session).session.environment := by
  by_cases hdepth : options.maxDepth ≤ session.depth
  · rw [walk_tooDeep hdepth]
    exact .refl _
  · have hcounted : IsInnermost scope { session with depth := session.depth + 1 } :=
      ⟨hinner.stacked, hinner.scope_eq⟩
    rw [walk_eq hdepth]
    exact keepsUndefined_runInside (fun child _ => definesInside_walk texts options child) hs address
      hcounted

/-- Conditionals and loops define nothing outside. They are walked in the innermost scope. Whatever was not
bound or `undefined` there or in a scope around it is read as before, whether or not the walk ends with an
error. -/
theorem branching_defines_nothing_outside {visit : Visit μ} (hreached : Reached texts options visit)
    (hbranching : visit.statement.kind.isBranching = true) :
    let before := visit.session.environment
    let after :=
      (walk texts options visit.scope visit.address visit.statement visit.session).session.environment
    visit.scope = before.innermost ∧
      ∀ outer ∈ before.chain visit.scope, ∀ name,
        before.read? outer name = none ∨ before.read? outer name = some .undefined →
          after.read? outer name = before.read? outer name := by
  intro before after
  have hinner := hreached.isInnermost
  refine ⟨hinner.scope_eq.symm, fun outer houter name hread => ?_⟩
  have hsees : before.sees name outer = false := by
    rw [Environment.sees_eq]
    rcases hread with hread | hread <;> rw [hread] <;> rfl
  have hopen : visit.scope < before.size := by
    rw [hinner.size_eq]
    exact Nat.lt_succ_self _
  have hle := Environment.le_of_mem_chain hinner.stacked.nested hopen outer houter
  exact keepsUndefined_walk hbranching visit.address hinner outer (Nat.lt_succ_of_le hle) name hsees

/-- A loop in a branch. It gives a value to `c`, which is bound nowhere, and a new one to `b`, which the
branch has bound. -/
def loopInBranch : Statement :=
  .program [.conditional "true"
    [.assignment "let b = true", .whileLoop "b" [.assignment "c = true", .assignment "b = false"]] []]

theorem branching_defines_nothing_outside_loop :
    ∃ visit : Visit Unit, Reached Texts.fresh {} visit ∧ visit.statement.kind = .loop ∧
      let before := visit.session.environment
      let outcome := walk Texts.fresh {} visit.scope visit.address visit.statement visit.session
      let after := outcome.session.environment
      before.chain visit.scope = [1, 0] ∧ outcome.error = none ∧
        (before.read? 1 "b").any Value.isTrue = true ∧ (after.read? 1 "b").any Value.isTrue = false ∧
        after.read? 0 "b" = none ∧ after.read? 1 "c" = none ∧ after.read? 0 "c" = none := by
  have hroot : Reached Texts.fresh {} _ := .tree [] () [] loopInBranch rfl
  have hbranch : Reached Texts.fresh {} _ :=
    hroot.inside (by decide) (.sequence (.inr rfl)) (.here rfl)
  have hloop : Reached Texts.fresh {} _ :=
    hbranch.inside (by decide) (.conditional rfl (alwaysHolds_true.test _ _))
      (.later rfl (by decide +kernel) (.here rfl))
  obtain ⟨-, hkept⟩ := branching_defines_nothing_outside hloop rfl
  refine ⟨_, hloop, rfl, by decide +kernel, by decide +kernel, by decide +kernel, by decide +kernel,
    ?_, ?_, ?_⟩
  · exact (hkept 0 (by decide +kernel) "b" (.inl (by decide +kernel))).trans (by decide +kernel)
  · exact (hkept 1 (by decide +kernel) "c" (.inl (by decide +kernel))).trans (by decide +kernel)
  · exact (hkept 0 (by decide +kernel) "c" (.inl (by decide +kernel))).trans (by decide +kernel)

end Path

end FlowPath
