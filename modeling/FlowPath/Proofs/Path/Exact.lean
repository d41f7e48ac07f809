import FlowPath.Proofs.Path.Unbounded

/-!
# Walks without cuts are exact

A walk that cuts off no loop does what the program does without bounds, and a program that comes to an
end is walked without cuts once the bounds are large enough. `exec_walk` is the first direction, by
induction on the statement; `walk_of_exec` is the second, by induction on the run, with bounds that add
up along it. A run has one outcome (`exec_unique`), and `annotate_exact` says that it is the outcome of
the walk.
-/

namespace FlowPath.Path

open Statement (Role Extends joinAll unmarkedAll extends_refl)

variable {options : WalkOptions}

/-! ## From walks to runs -/

/-- A walk through the tree that fails nowhere and cuts off nothing is a run. -/
def WalksExactly (options : WalkOptions) (s : Statement) : Prop :=
  ∀ scope address session,
    let outcome := walk Texts.fresh options scope address s session
    outcome.error = none → outcome.session.truncated = [] →
      session.truncated = [] ∧
        Exec options.strictInputs scope s session.store outcome.value outcome.session.store

theorem execAll_walkAll {l : List Statement} (hl : ∀ s ∈ l, WalksExactly options s) {scope : Nat}
    {role : Option Role} {address : Address} {index : Nat} {session : Session Unit}
    (herror : (walkAll Texts.fresh options scope role address index l session).error = none)
    (hcut : (walkAll Texts.fresh options scope role address index l session).session.truncated = []) :
    session.truncated = [] ∧
      ExecAll options.strictInputs scope role l session.store
        (walkAll Texts.fresh options scope role address index l session).value
        (walkAll Texts.fresh options scope role address index l session).session.store := by
  induction l generalizing index session with
  | nil =>
    rw [walkAll_nil] at hcut ⊢
    exact ⟨hcut, .nil⟩
  | cons s rest ih =>
    obtain ⟨hs, hrest⟩ := List.forall_mem_cons.mp hl
    cases hruns : runs role s with
    | false =>
      rw [walkAll_skip hruns] at herror hcut ⊢
      obtain ⟨hbefore, hothers⟩ := ih hrest herror hcut
      exact ⟨hbefore, .skip hruns hothers⟩
    | true =>
      rcases he : (walk Texts.fresh options scope (index :: address) s session).error with _ | e
      · rw [walkAll_run hruns he] at herror hcut ⊢
        obtain ⟨hbetween, hothers⟩ := ih hrest herror hcut
        obtain ⟨hbefore, hfirst⟩ := hs scope (index :: address) session he hbetween
        exact ⟨hbefore, .run hruns hfirst hothers⟩
      · rw [walkAll_error hruns he] at herror
        cases herror

/-- A round walks the children as they were before the loop; on the children with the marks of the
rounds before it does the same. -/
theorem walkAll_of_extends (options : WalkOptions) {children marked : List Statement} (h : Extends children marked)
    (scope : Nat) (role : Option Role) (address : Address) (index : Nat) (session : Session Unit) :
    walkAll Texts.fresh options scope role address index marked session =
        { walkAll Texts.fresh options scope role address index children session with
          value := joinAll marked
            (walkAll Texts.fresh options scope role address index children session).value } ∧
      Extends children (joinAll marked
        (walkAll Texts.fresh options scope role address index children session).value) := by
  obtain ⟨added, hadded, hvalue, hmarked⟩ :=
    walkAll_of_alike Texts.fresh options scope h.alike role address index session
  rw [hmarked, hvalue, h.joinAll_joinAll hadded]
  exact ⟨rfl, h.join hadded⟩

/-- The rounds of a loop are a run of it. -/
theorem execLoop_runLoop {s : Statement}
    (hs : ∀ l, unmarkedAll s.children = unmarkedAll l → ∀ c ∈ l, WalksExactly options c)
    {scope : Nat} {address : Address} {session : Session Unit} :
    let outcome := runLoop Texts.fresh options (loopParts Texts.fresh options scope address s)
      s.children session
    outcome.error = none → outcome.session.truncated = [] →
      session.truncated = [] ∧ ExecLoop options.strictInputs scope s.text s.children session.store
        outcome.value outcome.session.store := by
  -- The invariant says that what a run does from here on, the whole loop does.
  have rule : LoopRule Texts.fresh (loopParts Texts.fresh options scope address s)
      (fun marked after => Extends s.children marked ∧ (after.truncated = [] →
        session.truncated = [] ∧ ∀ final σ',
          ExecLoop options.strictInputs scope s.text marked after.store final σ' →
          ExecLoop options.strictInputs scope s.text s.children session.store final σ'))
      fun outcome => outcome.error = none → outcome.session.truncated = [] →
        session.truncated = [] ∧ ExecLoop options.strictInputs scope s.text s.children session.store
          outcome.value outcome.session.store :=
    { failed := fun _ _ he => by cases he
      ended := by
        rintro marked now after ⟨-, hI⟩ htest - hcut
        obtain ⟨htests, rfl⟩ := test_fresh_eq_ok_iff.mp htest
        obtain ⟨hbefore, hrun⟩ := hI hcut
        exact ⟨hbefore, hrun _ _ (.done htests)⟩
      cut := fun done _ _ after _ _ _ hcut => absurd hcut (recordCut_ne_nil _ _ _ _)
      broken := fun _ _ _ _ _ _ _ _ he => by cases he
      round := by
        rintro budget marked now after ⟨hext, hI⟩ htest hbody
        obtain ⟨htests, rfl⟩ := test_fresh_eq_ok_iff.mp htest
        let entered := { after with budget, rounds := after.rounds + 1 }.enter scope
        obtain ⟨hwalk, hnext⟩ := walkAll_of_extends options hext
          after.environment.nextScope (some .body) address 0 entered
        refine ⟨hnext, fun hcut => ?_⟩
        obtain ⟨hbefore, hrun⟩ := execAll_walkAll (hs marked hext.alike)
          ((congrArg Outcome.error hwalk).trans hbody)
          ((congrArg (·.session.truncated) hwalk).trans hcut)
        obtain ⟨hstart, hloop⟩ := hI hbefore
        rw [hwalk] at hrun
        exact ⟨hstart, fun final σ' hfinal => hloop final σ' (.round htests hrun hfinal)⟩ }
  exact rule.allRounds session.budget 0 ⟨extends_refl s.children, fun h => ⟨h, fun _ _ h => h⟩⟩

theorem exec_runInside {s : Statement}
    (hs : ∀ l, unmarkedAll s.children = unmarkedAll l → ∀ c ∈ l, WalksExactly options c)
    {scope : Nat} {address : Address} {session : Session Unit} :
    let outcome := runInside Texts.fresh options scope address s session
    outcome.error = none → outcome.session.truncated = [] →
      session.truncated = [] ∧ Exec options.strictInputs scope s session.store
        { s with onPath := true, children := outcome.value } outcome.session.store := by
  have hall {scope role} {session : Session Unit}
      (herror : (walkAll Texts.fresh options scope role address 0 s.children session).error = none) hcut :=
    execAll_walkAll (hs s.children rfl) herror hcut
  unfold runInside
  split
  next hkind =>
    dsimp only
    split <;> rename_i hbind
    · exact nofun
    · intro herror hcut
      obtain ⟨store, hbinds, rfl⟩ := bindParameters_eq_ok_iff.mp hbind
      obtain ⟨hbefore, hrun⟩ := hall herror hcut
      exact ⟨hbefore, .function hkind hbinds hrun⟩
  next hkind =>
    split <;> rename_i hassign
    · exact nofun
    · intro _ _ hcut
      obtain ⟨parsed, env, hparse, hdone, rfl⟩ := assign_fresh_eq_ok_iff.mp hassign
      exact ⟨hcut, .assignment hkind hparse hdone⟩
  next hkind =>
    split <;> rename_i htest
    · exact nofun
    · intro _ herror hcut
      obtain ⟨htests, rfl⟩ := test_fresh_eq_ok_iff.mp htest
      obtain ⟨hbefore, hrun⟩ := hall herror hcut
      exact ⟨hbefore, .conditional hkind htests hrun⟩
  next hkind =>
    intro _ herror hcut
    obtain ⟨hbefore, hrun⟩ := execLoop_runLoop hs herror hcut
    exact ⟨hbefore, .loop hkind hrun⟩
  next hkind =>
    intro _ herror hcut
    obtain ⟨hbefore, hrun⟩ := hall herror hcut
    exact ⟨hbefore, .sequence (.inl hkind) hrun⟩
  next hkind =>
    intro _ herror hcut
    obtain ⟨hbefore, hrun⟩ := hall herror hcut
    exact ⟨hbefore, .sequence (.inr hkind) hrun⟩

/-- The induction is for all trees with the same statements at once, since the rounds of a loop go
through trees with ever more marks. -/
theorem exec_walk {s s' : Statement} (h : s.unmarked = s'.unmarked) : WalksExactly options s' := by
  induction s generalizing s' with
  | node kind text role onPath children ih =>
    have hchildren : ∀ l, unmarkedAll s'.children = unmarkedAll l → ∀ c ∈ l, WalksExactly options c := by
      intro l hl c hc
      obtain ⟨x, hx, hsame⟩ := Statement.exists_alike ((Statement.unmarkedAll_children h).trans hl) hc
      exact ih x hx hsame
    intro scope address session
    by_cases hdepth : options.maxDepth ≤ session.depth
    · rw [walk_tooDeep hdepth]
      exact nofun
    · rw [walk_eq hdepth]
      exact exec_runInside hchildren

/-! ## From runs to walks -/

/-- From the session on there is room for so much: rounds of one loop, nesting, and rounds of all
loops together. -/
structure Room (strict : Bool) (options : WalkOptions) (session : Session Unit)
    (budget depth rounds : Nat) : Prop where
  inputs : options.strictInputs = strict
  budget : budget ≤ session.budget
  depth : session.depth + depth ≤ options.maxDepth
  rounds : session.rounds + rounds ≤ options.maxRounds

/-- Given room enough, a walk through the statement does what the run does. -/
def Follows (strict : Bool) (scope : Nat) (s : Statement) (σ : Store) (s' : Statement) (σ' : Store) :
    Prop :=
  ∃ budget depth rounds, ∀ options address session, session.store = σ →
    Room strict options session budget depth rounds →
    walk Texts.fresh options scope address s session =
      { value := s', session := session.advance σ' rounds, error := none }

/-- `Follows` for sequences. -/
def FollowsAll (strict : Bool) (scope : Nat) (role : Option Role) (l : List Statement) (σ : Store)
    (l' : List Statement) (σ' : Store) : Prop :=
  ∃ budget depth rounds, ∀ options address index session, session.store = σ →
    Room strict options session budget depth rounds →
    walkAll Texts.fresh options scope role address index l session =
      { value := l', session := session.advance σ' rounds, error := none }

/-- `Follows` for the rounds of a loop, from a time on when its statements have the marks of
`children`. -/
def FollowsLoop (strict : Bool) (scope : Nat) (condition : String) (children : List Statement)
    (σ : Store) (final : List Statement) (σ' : Store) : Prop :=
  ∃ budget depth rounds, ∀ options address s session left done, session.store = σ →
    s.text = condition → Extends s.children children →
    Room strict options { session with budget := left } budget depth rounds →
    ∃ spent, allRounds Texts.fresh options (loopParts Texts.fresh options scope address s) left done
      children session =
        { value := final
          session := { session.advance σ' rounds with budget := spent }
          error := none }

/-- What is inside a statement decides, given one more level of nesting. -/
theorem follows_of_runInside {strict : Bool} {scope : Nat} {s : Statement} {σ σ' : Store}
    {children : List Statement} (budget depth rounds : Nat)
    (h : ∀ options address session, session.store = σ →
      Room strict options session budget depth rounds →
      runInside Texts.fresh options scope address s session =
        { value := children, session := session.advance σ' rounds, error := none }) :
    Follows strict scope s σ { s with onPath := true, children } σ' := by
  refine ⟨budget, depth + 1, rounds, fun options address session hstore room => ?_⟩
  have hdepth := room.depth
  rw [walk_eq (by omega), h options address { session with depth := session.depth + 1 } hstore
    ⟨room.inputs, room.budget, show session.depth + 1 + depth ≤ _ by omega, room.rounds⟩]
  rfl

section Follows

variable {strict : Bool} {scope : Nat} {s : Statement} {σ σ₁ σ' : Store} {children : List Statement}

theorem follows_function (kind : s.kind = .function)
    (binds : Binds strict scope (Statement.parameterNames s.text) σ σ₁)
    (run : FollowsAll strict scope none s.children σ₁ children σ') :
    Follows strict scope s σ { s with onPath := true, children } σ' := by
  obtain ⟨budget, depth, rounds, hrun⟩ := run
  refine follows_of_runInside budget depth rounds fun options address session hstore room => ?_
  obtain rfl := room.inputs
  have hbind (name : String) : session.bindParameters options name scope
      (Statement.parameterNames s.text) = (.ok (), session.withStore σ₁) :=
    bindParameters_eq_ok_iff.mpr ⟨σ₁, hstore ▸ binds, rfl⟩
  simp only [runInside, kind, hbind]
  exact hrun options address 0 (session.withStore σ₁) rfl ⟨rfl, room.budget, room.depth, room.rounds⟩

theorem follows_assignment {parsed : Parsed} {env : Environment} (kind : s.kind = .assignment)
    (parse : parseAssignment s.text = .ok parsed)
    (assign : Session.assignParsed s.text parsed scope σ.environment = .ok env) :
    Follows strict scope s σ { s with onPath := true } { σ with environment := env } := by
  refine follows_of_runInside 0 0 0 fun options address session hstore room => ?_
  obtain rfl := hstore
  have hassign := assign_fresh_eq_ok_iff.mpr ⟨parsed, env, parse, assign, rfl⟩
  simp only [runInside, kind, hassign]
  rfl

theorem follows_conditional {holds : Bool} (kind : s.kind = .conditional)
    (tests : σ.Tests scope s.text holds)
    (run : FollowsAll strict σ.environment.nextScope
      (some (if holds then .consequent else .alternate)) s.children (σ.enter scope) children σ') :
    Follows strict scope s σ { s with onPath := true, children }
      (σ'.exit σ.environment.nextScope) := by
  obtain ⟨budget, depth, rounds, hrun⟩ := run
  refine follows_of_runInside budget depth rounds fun options address session hstore room => ?_
  obtain rfl := hstore
  have htest := test_fresh_eq_ok_iff.mpr ⟨tests, rfl⟩
  have hbranch : walkAll Texts.fresh options session.environment.nextScope _ address 0 s.children
      (session.enter scope) = _ :=
    hrun options address 0 (session.enter scope) rfl ⟨room.inputs, room.budget, room.depth, room.rounds⟩
  simp only [runInside, kind, htest, hbranch]
  rfl

theorem follows_loop (kind : s.kind = .loop)
    (run : FollowsLoop strict scope s.text s.children σ children σ') :
    Follows strict scope s σ { s with onPath := true, children } σ' := by
  obtain ⟨budget, depth, rounds, hrun⟩ := run
  refine follows_of_runInside budget depth rounds fun options address session hstore room => ?_
  obtain ⟨spent, hrounds⟩ := hrun options address s session session.budget 0 hstore rfl
    (extends_refl s.children) room
  simp only [runInside, kind, runLoop, hrounds]
  rfl

theorem follows_sequence (kind : s.kind = .returning ∨ s.kind = .other)
    (run : FollowsAll strict scope none s.children σ children σ') :
    Follows strict scope s σ { s with onPath := true, children } σ' := by
  obtain ⟨budget, depth, rounds, hrun⟩ := run
  refine follows_of_runInside budget depth rounds fun options address session hstore room => ?_
  rcases kind with kind | kind <;> simp only [runInside, kind] <;>
    exact hrun options address 0 session hstore room

theorem followsAll_run {role : Option Role} {s' : Statement} {rest rest' : List Statement}
    (hruns : runs role s = true) (first : Follows strict scope s σ s' σ₁)
    (others : FollowsAll strict scope role rest σ₁ rest' σ') :
    FollowsAll strict scope role (s :: rest) σ (s' :: rest') σ' := by
  obtain ⟨budget, depth, rounds, hfirst⟩ := first
  obtain ⟨budget', depth', rounds', hothers⟩ := others
  refine ⟨max budget budget', max depth depth', rounds + rounds', ?_⟩
  intro options address index session hstore room
  obtain ⟨hinputs, hbudget, hdepth, hrounds⟩ := room
  have hwalk := hfirst options (index :: address) session hstore
    ⟨hinputs, by omega, by omega, by omega⟩
  have hrest := hothers options address (index + 1) (session.advance σ₁ rounds) rfl
    ⟨hinputs, show budget' ≤ session.budget by omega, show session.depth + depth' ≤ _ by omega,
      show session.rounds + rounds + rounds' ≤ _ by omega⟩
  rw [walkAll_run hruns (by rw [hwalk]), hwalk]
  simp only [hrest, Session.advance_advance]

theorem followsAll_skip {role : Option Role} {rest rest' : List Statement}
    (hruns : runs role s = false) (others : FollowsAll strict scope role rest σ rest' σ') :
    FollowsAll strict scope role (s :: rest) σ (s :: rest') σ' := by
  obtain ⟨budget, depth, rounds, hothers⟩ := others
  refine ⟨budget, depth, rounds, fun options address index session hstore room => ?_⟩
  rw [walkAll_skip hruns, hothers options address (index + 1) session hstore room]

theorem followsLoop_done {condition : String} (tests : σ.Tests scope condition false) :
    FollowsLoop strict scope condition children σ children σ := by
  refine ⟨0, 0, 0, fun options address s session left done hstore htext _ _ => ⟨session.budget, ?_⟩⟩
  obtain rfl := hstore
  obtain rfl := htext
  have htest : session.test Texts.fresh s.text scope = (.ok false, session) :=
    test_fresh_eq_ok_iff.mpr ⟨tests, rfl⟩
  cases left with
  | zero => rw [allRounds_zero, oneRound_ended htest]; rfl
  | succ left => rw [allRounds_succ, oneRound_ended htest]; rfl

theorem followsLoop_round {condition : String} {marked final : List Statement}
    (tests : σ.Tests scope condition true)
    (body : FollowsAll strict σ.environment.nextScope (some .body) children (σ.enter scope) marked σ₁)
    (others : FollowsLoop strict scope condition marked (σ₁.exit σ.environment.nextScope) final σ') :
    FollowsLoop strict scope condition children σ final σ' := by
  obtain ⟨budget, depth, rounds, hbody⟩ := body
  obtain ⟨budget', depth', rounds', hothers⟩ := others
  refine ⟨max budget (budget' + 1), max depth depth', 1 + rounds + rounds', ?_⟩
  intro options address s session left done hstore htext hext room
  obtain rfl := hstore
  obtain rfl := htext
  obtain ⟨hinputs, hbudget, hdepth, hrounds⟩ := room
  obtain ⟨left, rfl⟩ : ∃ n, left = n + 1 := ⟨left - 1, by simp at hbudget; omega⟩
  simp only at hbudget hdepth hrounds
  have htest : session.test Texts.fresh s.text scope = (.ok true, session) :=
    test_fresh_eq_ok_iff.mpr ⟨tests, rfl⟩
  let parts := loopParts Texts.fresh options scope address s
  let inside := session.environment.nextScope
  let entered := { session with budget := left + 1, rounds := session.rounds + 1 }.enter scope
  -- The body walks the children as they were before the loop, but adds the marks of the run.
  obtain ⟨hwalk, hnext⟩ := walkAll_of_extends options hext inside (some .body) address 0 entered
  have hroom : Room strict options entered budget depth rounds :=
    ⟨hinputs, show budget ≤ left + 1 by omega, show session.depth + depth ≤ _ by omega,
      show session.rounds + 1 + rounds ≤ _ by omega⟩
  have hmarked := hwalk.symm.trans (hbody options address 0 entered rfl hroom)
  have hvalue : joinAll children (runBody parts (left + 1) session).value = marked :=
    congrArg Outcome.value hmarked
  have hsession : (runBody parts (left + 1) session).session =
      (entered.advance σ₁ rounds).exit inside :=
    congrArg (·.session.exit inside) hmarked
  have herror : (runBody parts (left + 1) session).error = none := congrArg Outcome.error hmarked
  obtain ⟨spent, hrest⟩ := hothers options address s ((entered.advance σ₁ rounds).exit inside) left
    (done + 1) rfl rfl (hvalue ▸ hnext)
    ⟨hinputs, show budget' ≤ left by omega, show session.depth + depth' ≤ _ by omega,
      show session.rounds + 1 + rounds + rounds' ≤ _ by omega⟩
  refine ⟨spent, ?_⟩
  rw [allRounds_succ, oneRound_next htest (by omega) herror, hvalue, hsession]
  refine hrest.trans ?_
  have hsum : session.rounds + (1 + rounds + rounds') = session.rounds + 1 + rounds + rounds' := by omega
  simp only [Session.advance, hsum]
  rfl

end Follows

theorem walk_of_exec {strict : Bool} {scope : Nat} {s s' : Statement} {σ σ' : Store}
    (h : Exec strict scope s σ s' σ') : Follows strict scope s σ s' σ' :=
  @Exec.rec strict (fun scope s σ s' σ' _ => Follows strict scope s σ s' σ')
    (fun scope role l σ l' σ' _ => FollowsAll strict scope role l σ l' σ')
    (fun scope condition c σ c' σ' _ => FollowsLoop strict scope condition c σ c' σ')
    (fun kind binds _ run => follows_function kind binds run)
    (fun kind parse assign => follows_assignment kind parse assign)
    (fun kind tests _ run => follows_conditional kind tests run)
    (fun kind _ run => follows_loop kind run)
    (fun kind _ run => follows_sequence kind run)
    ⟨0, 0, 0, fun _ _ _ _ hstore _ => by rw [walkAll_nil, ← hstore]; rfl⟩
    (fun hruns _ _ first others => followsAll_run hruns first others)
    (fun hruns _ others => followsAll_skip hruns others)
    (fun tests => followsLoop_done tests)
    (fun tests _ _ body others => followsLoop_round tests body others) scope s σ s' σ' h

/-- A run has one outcome. -/
theorem exec_unique {strict : Bool} {scope : Nat} {s s₁ s₂ : Statement} {σ σ₁ σ₂ : Store}
    (h₁ : Exec strict scope s σ s₁ σ₁) (h₂ : Exec strict scope s σ s₂ σ₂) : s₁ = s₂ ∧ σ₁ = σ₂ := by
  obtain ⟨budget₁, depth₁, rounds₁, hwalk₁⟩ := walk_of_exec h₁
  obtain ⟨budget₂, depth₂, rounds₂, hwalk₂⟩ := walk_of_exec h₂
  let options : WalkOptions :=
    { strictInputs := strict, maxDepth := max depth₁ depth₂, maxRounds := max rounds₁ rounds₂ }
  let session : Session Unit :=
    { environment := σ.environment, inputs := σ.inputs, budget := max budget₁ budget₂, memory := () }
  have hroom₁ : Room strict options session budget₁ depth₁ rounds₁ :=
    ⟨rfl, Nat.le_max_left _ _, show 0 + depth₁ ≤ max depth₁ depth₂ by omega,
      show 0 + rounds₁ ≤ max rounds₁ rounds₂ by omega⟩
  have hroom₂ : Room strict options session budget₂ depth₂ rounds₂ :=
    ⟨rfl, Nat.le_max_right _ _, show 0 + depth₂ ≤ max depth₁ depth₂ by omega,
      show 0 + rounds₂ ≤ max rounds₁ rounds₂ by omega⟩
  have hsame := (hwalk₁ options [] session rfl hroom₁).symm.trans (hwalk₂ options [] session rfl hroom₂)
  exact ⟨congrArg Outcome.value hsame, congrArg (·.session.store) hsame⟩

/-! ## Programs -/

/-- What a walk without cuts finds out is what the program does when nothing bounds it. If the walk of a
program ends well and reports no loop as cut off, the program comes to an end with the same marks and
the same variables in its root scope, in the same order and with the same values, and with no others. And
if the program comes to an end, there are bounds from which on every walk ends well, reports nothing as cut off and
gives these marks and variables. -/
theorem annotate_exact (inputs : List Value) (tree : Statement) :
    (∀ options marked summary, annotate options inputs tree = (marked, .ok summary) →
      summary.truncated = [] →
        ∃ store, Exec options.strictInputs 0 tree { inputs } marked store ∧
          summary.bindings = store.bindings ∧
          ∀ marked' store', Exec options.strictInputs 0 tree { inputs } marked' store' →
            marked' = marked ∧ store' = store) ∧
    ∀ strict marked store, Exec strict 0 tree { inputs } marked store →
      ∃ unrollBudget maxDepth maxRounds, ∀ options : WalkOptions, options.strictInputs = strict →
        unrollBudget ≤ options.unrollBudget → maxDepth ≤ options.maxDepth →
        maxRounds ≤ options.maxRounds →
          annotate options inputs tree =
            (marked, .ok { bindings := store.bindings, truncated := [] }) := by
  constructor
  · intro options marked summary h hcut
    obtain ⟨herror, rfl, rfl⟩ := annotate_eq_ok_iff.mp h
    obtain ⟨-, hexec⟩ := exec_walk rfl 0 [0] _ herror (List.map_eq_nil_iff.mp hcut)
    exact ⟨_, hexec, rfl, fun _ _ hother => exec_unique hother hexec⟩
  · intro strict marked store h
    obtain ⟨budget, depth, rounds, hwalk⟩ := walk_of_exec h
    refine ⟨budget, depth, rounds, fun options hstrict hbudget hdepth hrounds => ?_⟩
    have houtcome := hwalk options [0] { Session.start options inputs () with trees := 1 } rfl
      ⟨hstrict, hbudget, by simpa [Session.start] using hdepth, by simpa [Session.start] using hrounds⟩
    have htree : walkTree Texts.fresh options tree (Session.start options inputs ()) = _ := houtcome
    rw [annotate_eq_ok_iff, htree]
    exact ⟨rfl, rfl, rfl⟩

/-- A loop that ends with the only round that the budget leaves it. -/
theorem annotate_exact_last_round :
    let tree := Statement.program [.function "function f(go)"
      [.whileLoop "go" [.assignment "go = false"], .assignment "done = go"]]
    ∃ marked store, Exec false 0 tree { inputs := [.boolean true] } marked store ∧
      store.bindings.map (·.1) = ["go", "done"] ∧
      ∃ unrollBudget maxDepth maxRounds, ∀ options : WalkOptions, options.strictInputs = false →
        unrollBudget ≤ options.unrollBudget → maxDepth ≤ options.maxDepth →
        maxRounds ≤ options.maxRounds →
          annotate options [.boolean true] tree =
            (marked, .ok { bindings := store.bindings, truncated := [] }) := by
  intro tree
  obtain ⟨hforward, hbackward⟩ := annotate_exact [.boolean true] tree
  have hfound : (annotate { unrollBudget := 0 } [.boolean true] tree).2.toOption.map
      (fun summary => (summary.truncated, summary.bindings.map (·.1))) =
        some ([], ["go", "done"]) := by
    rw [annotate_eq_fresh]
    decide +kernel
  rcases hannotate : annotate { unrollBudget := 0 } [.boolean true] tree with ⟨marked, _ | summary⟩
  · rw [hannotate] at hfound
    cases hfound
  · rw [hannotate] at hfound
    obtain ⟨hcut, hnames⟩ := Prod.mk.inj (Option.some.inj hfound)
    obtain ⟨store, hexec, hbindings, -⟩ := hforward _ marked summary hannotate hcut
    exact ⟨marked, store, hexec, hbindings ▸ hnames, hbackward false marked store hexec⟩

end FlowPath.Path
