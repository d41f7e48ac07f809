import FlowPath.Proofs.Path.Depth
import FlowPath.Proofs.Path.Exact

/-!
# Larger limits

A walk that comes to its end without a cut has not felt its limits, so under larger limits it goes the
same way. Two such walks are at every point in the same session up to the budget, which is larger in the
second walk: `Repeats` relates them, and `repeats_walk` shows it of all trees.
-/

namespace FlowPath

variable {μ α : Type}

/-- The limits of the second options are no smaller, and they treat inputs in the same way. -/
structure WalkOptions.Within (options larger : WalkOptions) : Prop where
  strictInputs : larger.strictInputs = options.strictInputs
  unrollBudget : options.unrollBudget ≤ larger.unrollBudget
  maxDepth : options.maxDepth ≤ larger.maxDepth
  maxRounds : options.maxRounds ≤ larger.maxRounds

/-- The session with another budget. -/
def Session.withBudget (session : Session μ) (budget : Nat) : Session μ := { session with budget }

namespace Path

open Statement (Role joinAll)

variable {texts : Texts μ} {options larger : WalkOptions} {session : Session μ}

/-! ## Single steps -/

theorem test_withBudget (texts : Texts μ) (session : Session μ) (condition : String) (scope budget : Nat) :
    (session.withBudget budget).test texts condition scope =
      ((session.test texts condition scope).1, (session.test texts condition scope).2.withBudget budget) := by
  unfold Session.test
  dsimp only [Session.withBudget]
  split <;> rfl

theorem assign_withBudget (texts : Texts μ) (session : Session μ) (text : String) (scope budget : Nat) :
    (session.withBudget budget).assign texts text scope =
      ((session.assign texts text scope).1, (session.assign texts text scope).2.withBudget budget) := by
  unfold Session.assign
  dsimp only [Session.withBudget]
  split
  · rfl
  · split <;> rfl

theorem bindParameters_withBudget (session : Session μ) (h : larger.strictInputs = options.strictInputs)
    (function : String) (scope : Nat) (parameters : List String) (budget : Nat) :
    (session.withBudget budget).bindParameters larger function scope parameters =
        ((session.bindParameters options function scope parameters).1,
          (session.bindParameters options function scope parameters).2.withBudget budget) := by
  fun_induction Session.bindParameters options function scope parameters session with
  | case1 => rfl
  | case2 parameter rest session value inputs hinputs ih =>
    simp only [Session.bindParameters, Session.withBudget, hinputs]
    exact ih
  | case3 parameter rest session hinputs hstrict =>
    simp only [Session.bindParameters, Session.withBudget, hinputs, h, hstrict, if_true]
  | case4 parameter rest session hinputs hlenient ih =>
    simpa [Session.bindParameters, Session.withBudget, hinputs, h, hlenient] using ih

/-! ## Walks that go the same way -/

/-- Where the first walk comes to its end without a cut, there was none before, and the second walk does
the same from a session with a larger budget. -/
def Repeats (first second : Session μ → Outcome μ α) : Prop :=
  ∀ session budget, 0 < session.environment.size → session.budget ≤ budget →
    (first session).error = none → (first session).session.truncated = [] →
      session.truncated = [] ∧
        second (session.withBudget budget) =
          { first session with session := (first session).session.withBudget budget }

section Loop

/-- Two loops whose bodies go the same way. -/
structure LoopsRepeat (parts parts' : LoopParts μ) : Prop where
  condition : parts'.condition = parts.condition
  address : parts'.address = parts.address
  scope : parts'.scope = parts.scope
  body (inside : Nat) : Repeats (parts.body inside) (parts'.body inside)

variable {parts parts' : LoopParts μ} {marked : List Statement}

theorem repeats_runBody (h : LoopsRepeat parts parts') {budget budget' : Nat} (hle : budget ≤ budget')
    (held : Nat) (herror : (runBody parts budget session).error = none)
    (hcut : (runBody parts budget session).session.truncated = []) :
    session.truncated = [] ∧
      runBody parts' budget' (session.withBudget held) =
        { runBody parts budget session with
          session := (runBody parts budget session).session.withBudget budget' } := by
  let entered := { session with budget, rounds := session.rounds + 1 }.enter parts.scope
  have hroot : 0 < entered.environment.size := by simp [entered, Session.enter]
  obtain ⟨hbefore, hbody⟩ :=
    h.body session.environment.nextScope entered budget' hroot hle herror hcut
  refine ⟨hbefore, ?_⟩
  rw [runBody, h.scope]
  exact congrArg (fun out : Outcome μ (List Statement) =>
    { out with session := out.session.exit session.environment.nextScope }) hbody

/-- A loop whose condition does not hold ends at once, whatever its budget. -/
theorem allRounds_ended {after : Session μ} (budget done : Nat)
    (htest : session.test texts parts.condition parts.scope = (.ok false, after)) :
    allRounds texts options parts budget done marked session =
      { value := marked, session := after, error := none } := by
  cases budget with
  | zero => rw [allRounds_zero, oneRound_ended htest]; rfl
  | succ budget => rw [allRounds_succ, oneRound_ended htest]; rfl

theorem lastTest_ended {after : Session μ} (done : Nat)
    (htest : session.test texts parts.condition parts.scope = (.ok false, after)) :
    lastTest texts parts done marked session = { value := marked, session := after, error := none } := by
  rw [lastTest, htest]

/-- `Repeats` for the rounds of a loop. What is left of the budget differs at their end, but then the loop
restores it. -/
def RoundsRepeat (next next' : List Statement → Session μ → Outcome μ (List Statement)) : Prop :=
  ∀ marked session held, (next marked session).error = none → (next marked session).session.truncated = [] →
    session.truncated = [] ∧ ∃ left,
      next' marked (session.withBudget held) =
        { next marked session with session := (next marked session).session.withBudget left }

/-- After the last round of the first loop its condition does not hold. Then the second loop ends as well,
even if it could go on. -/
theorem roundsRepeat_lastTest (h : LoopsRepeat parts parts') (done : Nat)
    {next : List Statement → Session μ → Outcome μ (List Statement)}
    (hended : ∀ {marked session after},
      session.test texts parts'.condition parts'.scope = (.ok false, after) →
        next marked session = { value := marked, session := after, error := none }) :
    RoundsRepeat (lastTest texts parts done) next := by
  intro marked session held
  have htest := test_withBudget texts session parts.condition parts.scope held
  have hsame := (session.sameCounts_test texts parts.condition parts.scope).truncated
  unfold lastTest
  generalize session.test texts parts.condition parts.scope = tested at htest hsame
  obtain ⟨_ | _ | _, after⟩ := tested
  · exact nofun
  · intro _ hcut
    rw [← h.condition, ← h.scope] at htest
    exact ⟨hsame ▸ hcut, held, hended htest⟩
  · exact fun _ hcut => absurd hcut (recordCut_ne_nil _ _ _ _)

/-- A round goes the same way, and so do the rounds after it. -/
theorem roundsRepeat_andThen (h : LoopsRepeat parts parts') (hrounds : options.maxRounds ≤ larger.maxRounds)
    {budget budget' : Nat} (hle : budget ≤ budget') (done done' : Nat)
    {next next' : List Statement → Session μ → Outcome μ (List Statement)} (hnext : RoundsRepeat next next') :
    RoundsRepeat
      (fun marked session => (oneRound texts options parts budget done marked session).andThen next)
      fun marked session => (oneRound texts larger parts' budget' done' marked session).andThen next' := by
  intro marked session held
  have htest := test_withBudget texts session parts.condition parts.scope held
  have hsame := (session.sameCounts_test texts parts.condition parts.scope).truncated
  dsimp only
  unfold oneRound
  rw [h.condition, h.scope, htest]
  generalize session.test texts parts.condition parts.scope = tested at hsame
  obtain ⟨_ | _ | _, after⟩ := tested
  · exact nofun
  · exact fun _ hcut => ⟨hsame ▸ hcut, held, rfl⟩
  dsimp only
  by_cases hcapped : options.maxRounds ≤ after.rounds
  · rw [if_pos hcapped]
    exact fun _ hcut => absurd hcut (recordCut_ne_nil _ _ _ _)
  have hcapped' : ¬ larger.maxRounds ≤ (after.withBudget held).rounds :=
    fun hle => hcapped (Nat.le_trans hrounds hle)
  rw [if_neg hcapped, if_neg hcapped']
  cases hbody : (runBody parts budget after).error with
  | some e => exact nofun
  | none =>
    intro herror hcut
    -- That nothing is cut off at the end goes back first to the end of this round, then to its start.
    obtain ⟨hbetween, left, hothers⟩ := hnext _ _ budget' herror hcut
    obtain ⟨hbefore, hrun⟩ := repeats_runBody h hle held hbody hbetween
    refine ⟨hsame ▸ hbefore, left, ?_⟩
    simp only [hrun, hbody]
    exact hothers

theorem roundsRepeat_allRounds (h : LoopsRepeat parts parts') (hrounds : options.maxRounds ≤ larger.maxRounds)
    {budget budget' : Nat} (hle : budget ≤ budget') (done done' : Nat) :
    RoundsRepeat (allRounds texts options parts budget done)
      (allRounds texts larger parts' budget' done') := by
  induction budget generalizing budget' done done' with
  | zero =>
    intro marked session held
    rw [allRounds_zero]
    cases budget' with
    | zero =>
      rw [allRounds_zero]
      exact roundsRepeat_andThen h hrounds hle done done'
        (roundsRepeat_lastTest h (done + 1) (lastTest_ended (done' + 1))) marked session held
    | succ budget' =>
      rw [allRounds_succ]
      exact roundsRepeat_andThen h hrounds hle done done'
        (roundsRepeat_lastTest h (done + 1) (allRounds_ended budget' (done' + 1))) marked session held
  | succ budget ih =>
    obtain ⟨budget', rfl⟩ : ∃ n, budget' = n + 1 := ⟨budget' - 1, by omega⟩
    intro marked session held
    rw [allRounds_succ, allRounds_succ]
    exact roundsRepeat_andThen h hrounds hle done done'
      (ih (Nat.le_of_succ_le_succ hle) (done + 1) (done' + 1)) marked session held

theorem repeats_runLoop (h : LoopsRepeat parts parts') (hrounds : options.maxRounds ≤ larger.maxRounds)
    (children : List Statement) :
    Repeats (runLoop texts options parts children) (runLoop texts larger parts' children) := by
  intro session budget hroot hle herror hcut
  obtain ⟨hbefore, left, hall⟩ :=
    roundsRepeat_allRounds h hrounds hle 0 0 children session budget herror hcut
  refine ⟨hbefore, ?_⟩
  exact congrArg (fun out : Outcome μ (List Statement) =>
    { out with session := { out.session with budget } }) hall

end Loop

/-! ## Statements -/

theorem repeats_walkAll {statements : List Statement}
    (h : ∀ s ∈ statements, ∀ scope address,
      Repeats (walk texts options scope address s) (walk texts larger scope address s))
    (scope : Nat) (role : Option Role) (address : Address) (index : Nat) :
    Repeats (walkAll texts options scope role address index statements)
      (walkAll texts larger scope role address index statements) := by
  induction statements generalizing index with
  | nil =>
    intro session budget _ _ _ hcut
    rw [walkAll_nil] at hcut
    rw [walkAll_nil, walkAll_nil]
    exact ⟨hcut, rfl⟩
  | cons s rest ih =>
    obtain ⟨hfirst, hrest⟩ := List.forall_mem_cons.mp h
    intro session budget hroot hle herror hcut
    cases hruns : runs role s with
    | false =>
      rw [walkAll_skip hruns] at herror hcut
      rw [walkAll_skip hruns, walkAll_skip hruns]
      obtain ⟨hbefore, hothers⟩ := ih hrest (index + 1) session budget hroot hle herror hcut
      exact ⟨hbefore, by rw [hothers]⟩
    | true =>
      cases he : (walk texts options scope (index :: address) s session).error with
      | some e =>
        rw [walkAll_error hruns he] at herror
        cases herror
      | none =>
        rw [walkAll_run hruns he] at herror hcut
        have hkept := tidy_walk texts options s scope (index :: address) session hroot
        obtain ⟨hbetween, hothers⟩ := ih hrest (index + 1) _ budget (hkept.rooted hroot)
          (hkept.budget ▸ hle) herror hcut
        obtain ⟨hbefore, hwalk⟩ :=
          hfirst scope (index :: address) session budget hroot hle he hbetween
        have he' := (congrArg Outcome.error hwalk).trans he
        rw [walkAll_run hruns he, walkAll_run hruns he']
        refine ⟨hbefore, ?_⟩
        simp only [hwalk, hothers]

theorem repeats_runInside (hlimits : options.Within larger) (s : Statement)
    (h : ∀ child ∈ s.children, ∀ scope address,
      Repeats (walk texts options scope address child) (walk texts larger scope address child))
    (scope : Nat) (address : Address) :
    Repeats (runInside texts options scope address s) (runInside texts larger scope address s) := by
  have hchildren := repeats_walkAll h
  intro session budget hroot hle
  unfold runInside
  cases s.kind with
  | function =>
    have hbound := bindParameters_withBudget session hlimits.strictInputs
      ((Statement.nameInHead? s.text).getD Session.anonymous) scope (Statement.parameterNames s.text) budget
    have hkept := Session.preserves_bindParameters options
      ((Statement.nameInHead? s.text).getD Session.anonymous) scope (Statement.parameterNames s.text) session
    have hsame := (session.sameCounts_bindParameters options
      ((Statement.nameInHead? s.text).getD Session.anonymous) scope
      (Statement.parameterNames s.text)).truncated
    simp only [hbound]
    generalize session.bindParameters options _ scope _ = bound at hkept hsame
    obtain ⟨_ | _, bound⟩ := bound
    · exact nofun
    · intro herror hcut
      obtain ⟨hbefore, hwalk⟩ := hchildren scope none address 0 bound budget (hkept.rooted hroot)
        (hkept.budget ▸ hle) herror hcut
      exact ⟨hsame ▸ hbefore, hwalk⟩
  | assignment =>
    have hassign := assign_withBudget texts session s.text scope budget
    have hsame := (session.sameCounts_assign texts s.text scope).truncated
    simp only [hassign]
    generalize session.assign texts s.text scope = assigned at hsame
    obtain ⟨_ | _, assigned⟩ := assigned
    · exact nofun
    · exact fun _ hcut => ⟨hsame ▸ hcut, rfl⟩
  | conditional =>
    have htest := test_withBudget texts session s.text scope budget
    have hkept := Session.preserves_test texts s.text scope session
    have hsame := (session.sameCounts_test texts s.text scope).truncated
    simp only [htest]
    generalize session.test texts s.text scope = tested at hkept hsame
    obtain ⟨_ | holds, tested⟩ := tested
    · exact nofun
    · intro herror hcut
      obtain ⟨hbefore, hwalk⟩ := hchildren tested.environment.nextScope
        (some (if holds then Role.consequent else Role.alternate)) address 0 (tested.enter scope) budget
        (by simp [Session.enter]) (hkept.budget ▸ hle) herror hcut
      refine ⟨hsame ▸ hbefore, ?_⟩
      exact congrArg (fun out : Outcome μ (List Statement) =>
        { out with session := out.session.exit tested.environment.nextScope }) hwalk
  | loop =>
    have hparts : LoopsRepeat (loopParts texts options scope address s)
        (loopParts texts larger scope address s) :=
      ⟨rfl, rfl, rfl, fun inside => hchildren inside (some .body) address 0⟩
    exact repeats_runLoop hparts hlimits.maxRounds s.children session budget hroot hle
  | returning => exact hchildren scope none address 0 session budget hroot hle
  | other => exact hchildren scope none address 0 session budget hroot hle

theorem repeats_walk (texts : Texts μ) (hlimits : options.Within larger) (s : Statement) (scope : Nat)
    (address : Address) :
    Repeats (walk texts options scope address s) (walk texts larger scope address s) := by
  induction s generalizing scope address with
  | node kind text role onPath children ih =>
    intro session budget hroot hle
    by_cases hdepth : options.maxDepth ≤ session.depth
    · rw [walk_tooDeep hdepth]
      exact nofun
    · have hdepth' : ¬ larger.maxDepth ≤ (session.withBudget budget).depth :=
        fun h => hdepth (Nat.le_trans hlimits.maxDepth h)
      rw [walk_eq hdepth, walk_eq hdepth']
      intro herror hcut
      obtain ⟨hbefore, hinside⟩ := repeats_runInside hlimits ⟨kind, text, role, onPath, children⟩ ih
        scope address { session with depth := session.depth + 1 } budget hroot hle herror hcut
      refine ⟨hbefore, ?_⟩
      exact congrArg (fun out : Outcome μ (List Statement) =>
        Outcome.mk (Statement.mk kind text role true out.value)
          { out.session with depth := out.session.depth - 1 } out.error) hinside

/-! ## Programs -/

/-- Larger limits never change a result without cuts. If the walk of a program ends well and reports no
loop as cut off, then with any larger limits it ends with the same summary and the same marks. And
whatever the other options are, a program that is no higher than the limit on the depth is never refused
as nested too deeply. -/
theorem annotate_within (options : WalkOptions) (inputs : List Value) (tree : Statement) :
    (∀ marked summary, annotate options inputs tree = (marked, .ok summary) → summary.truncated = [] →
      ∀ larger, options.Within larger → annotate larger inputs tree = (marked, .ok summary)) ∧
    (tree.height ≤ options.maxDepth →
      ∀ limit, (annotate options inputs tree).2 ≠ .error (.tooDeep limit)) := by
  let start : Session Unit := { Session.start options inputs () with trees := 1 }
  have hroot : 0 < start.environment.size := Nat.one_pos
  constructor
  · intro marked summary h hcut larger hlimits
    obtain ⟨herror, rfl, rfl⟩ := annotate_eq_ok_iff.mp h
    obtain ⟨-, hwalk⟩ := repeats_walk Texts.fresh hlimits tree 0 [0] start larger.unrollBudget hroot
      hlimits.unrollBudget herror (List.map_eq_nil_iff.mp hcut)
    have htree : walkTree Texts.fresh larger tree (Session.start larger inputs ()) = _ := hwalk
    rw [annotate_eq_ok_iff, htree]
    exact ⟨herror, rfl, rfl⟩
  · intro hheight limit h
    rw [annotate_eq_fresh] at h
    unfold conclude at h
    dsimp only at h
    split at h
    · rename_i e herror
      cases h
      have hfits := fits_walk Texts.fresh options tree 0 [0] start hroot
        (show 0 + tree.height ≤ _ by omega) _ herror
      cases hfits
    · cases h

/-- A loop that ends with the only round that the limits leave it, in a tree just as high as allowed. -/
theorem annotate_within_last_round :
    let tree := Statement.program [.function "function f(go)"
      [.whileLoop "go" [.assignment "go = false"], .assignment "done = go"]]
    let options : WalkOptions := { unrollBudget := 0, maxDepth := 4, maxRounds := 1 }
    let larger : WalkOptions := { unrollBudget := 3, maxDepth := 4, maxRounds := 8 }
    (∃ marked summary, annotate options [.boolean true] tree = (marked, .ok summary) ∧
      summary.truncated = [] ∧ annotate larger [.boolean true] tree = (marked, .ok summary)) ∧
    tree.height = 4 ∧
      ∀ limit, (annotate { options with unrollBudget := 7 } [] tree).2 ≠ .error (.tooDeep limit) := by
  intro tree options larger
  have hfound : (annotate options [.boolean true] tree).2.toOption.map (·.truncated) = some [] := by
    rw [annotate_eq_fresh]
    decide +kernel
  have hheight : tree.height = 4 := rfl
  refine ⟨?_, hheight, (annotate_within _ [] tree).2 (Nat.le_of_eq hheight)⟩
  rcases hannotate : annotate options [.boolean true] tree with ⟨marked, _ | summary⟩
  · rw [hannotate] at hfound
    cases hfound
  · rw [hannotate] at hfound
    have hcut : summary.truncated = [] := Option.some.inj hfound
    refine ⟨marked, summary, rfl, hcut, ?_⟩
    exact (annotate_within options [.boolean true] tree).1 marked summary hannotate hcut larger
      ⟨rfl, by decide, by decide, by decide⟩

end Path

end FlowPath
