import Mathlib.Data.Nat.Choose.Basic
import FlowPath.Proofs.Path.Lockstep
import FlowPath.Proofs.Path.LoopRuns
import FlowPath.Proofs.Path.Unbounded

/-!
# Loops inside one another

Loops without end that stand inside one another share their budget: each round of a loop leaves one less for
the rounds to come and for the loops inside them. `Costs` says how many rounds a statement adds, as a function
of the budget. A loop without end around a statement goes one round with each budget from its own down to zero
(`costs_whileLoop`), so the rounds of nested loops are sums of sums, which are binomial coefficients
(`nestedRounds_eq_choose`). The rounds of all loops together stop at their limit wherever that is reached.
-/

namespace FlowPath.Path

open LoopRun (bodiesIn)

/-- The condition holds wherever it is tested. -/
def AlwaysHolds (condition : String) : Prop :=
  ∃ parsed, parseExpression condition = .ok parsed ∧
    ∀ bindings, (parsed.root.eval bindings).isTrue = true

/-- The expression is the literal of a truth. -/
def saysTrue {α : Type} : Expr α → Bool
  | .boolean _ value => value
  | _ => false

theorem eval_of_saysTrue {α : Type} {e : Expr α} (h : saysTrue e = true) (bindings : Bindings) :
    (e.eval bindings).isTrue = true := by
  cases e with
  | boolean note value =>
    obtain rfl : value = true := h
    rfl
  | _ => cases h

theorem alwaysHolds_true : AlwaysHolds "true" := by
  have hsays : (parseExpression "true").toOption.any (fun parsed => saysTrue parsed.root) = true := by
    decide +kernel
  rcases hparse : parseExpression "true" with e | parsed
  · rw [hparse] at hsays
    cases hsays
  · rw [hparse] at hsays
    exact ⟨parsed, hparse, eval_of_saysTrue hsays⟩

theorem AlwaysHolds.test {condition : String} (h : AlwaysHolds condition) (scope : Nat)
    (session : Session Unit) : session.test Texts.fresh condition scope = (.ok true, session) := by
  obtain ⟨parsed, hparse, heval⟩ := h
  exact test_fresh_eq_ok_iff.mpr ⟨⟨parsed, hparse, heval _⟩, rfl⟩

/-! ## Counting -/

/-- The rounds in and of a loop without end, where `inside` are those in a body. -/
def roundsAround (inside : Nat → Nat) : Nat → Nat
  | 0 => inside 0 + 1
  | budget + 1 => inside (budget + 1) + 1 + roundsAround inside budget

/-- The rounds of so many loops without end that stand inside one another. -/
def nestedRounds : Nat → Nat → Nat
  | 0 => fun _ => 0
  | depth + 1 => roundsAround (nestedRounds depth)

theorem nestedRounds_eq_choose (depth budget : Nat) :
    nestedRounds depth budget + 1 = (budget + depth + 1).choose depth := by
  -- With the one that is added, a round and those after it make Pascal's rule.
  induction depth generalizing budget with
  | zero => simp [nestedRounds]
  | succ depth ih =>
    induction budget with
    | zero =>
      rw [nestedRounds, roundsAround, ih 0, Nat.zero_add, Nat.zero_add, Nat.choose_succ_succ',
        Nat.choose_self]
    | succ budget ihbudget =>
      calc nestedRounds (depth + 1) (budget + 1) + 1
          = (nestedRounds depth (budget + 1) + 1) + (nestedRounds (depth + 1) budget + 1) := by
            simp only [nestedRounds, roundsAround]
            omega
        _ = (budget + 1 + depth + 1).choose depth + (budget + (depth + 1) + 1).choose (depth + 1) := by
            rw [ih, ihbudget]
        _ = (budget + 1 + (depth + 1) + 1).choose (depth + 1) := by
            have hsize : budget + 1 + depth + 1 = budget + (depth + 1) + 1 := by omega
            rw [hsize, ← Nat.choose_succ_succ']
            congr 1
            omega

/-! ## Costs -/

/-- There is room for statements that nest so deep, and the rounds are within their limit. -/
structure HasRoom (options : WalkOptions) (height : Nat) (session : Session Unit) : Prop where
  root : 0 < session.environment.size
  depth : session.depth + height ≤ options.maxDepth
  rounds : session.rounds ≤ options.maxRounds

/-- Nothing failed, and loops went round so many times more, or until they reached their limit. -/
structure Adds {α : Type} (options : WalkOptions) (before : Session Unit) (added : Nat)
    (outcome : Outcome Unit α) : Prop where
  error : outcome.error = none
  rounds : outcome.session.rounds = min options.maxRounds (before.rounds + added)

/-- The rounds that the walk of a statement adds, as a function of the budget. -/
def Costs (options : WalkOptions) (s : Statement) (height : Nat) (cost : Nat → Nat) : Prop :=
  ∀ scope address (session : Session Unit), HasRoom options height session →
    Adds options session (cost session.budget) (walk Texts.fresh options scope address s session)

section Statements

variable {options : WalkOptions} {s child : Statement} {height : Nat} {cost : Nat → Nat}

theorem Costs.walkAll (h : Costs options child height cost) {role : Option Statement.Role}
    (hruns : runs role child = true) (scope : Nat) (address : Address) {session : Session Unit}
    (hroom : HasRoom options height session) :
    Adds options session (cost session.budget)
      (walkAll Texts.fresh options scope role address 0 [child] session) := by
  have hwalk := h scope (0 :: address) session hroom
  rw [walkAll_run hruns hwalk.error]
  simp only [walkAll_nil]
  exact ⟨rfl, hwalk.rounds⟩

theorem Costs.of_runInside
    (h : ∀ scope address (session : Session Unit), HasRoom options height session →
      Adds options session (cost session.budget) (runInside Texts.fresh options scope address s session)) :
    Costs options s (height + 1) cost := by
  intro scope address session hroom
  have hdepth := hroom.depth
  have hinside := h scope address { session with depth := session.depth + 1 }
    ⟨hroom.root, by dsimp only; omega, hroom.rounds⟩
  rw [walk_eq (by omega)]
  exact ⟨hinside.error, hinside.rounds⟩

theorem costs_sequence (hkind : s.kind = .other) (hchildren : s.children = [child])
    (h : Costs options child height cost) : Costs options s (height + 1) cost := by
  refine .of_runInside fun scope address session hroom => ?_
  simp only [runInside, hkind, hchildren]
  exact h.walkAll rfl scope address hroom

theorem costs_plain (hkind : s.kind = .other) (hchildren : s.children = []) :
    Costs options s 1 fun _ => 0 := by
  refine .of_runInside fun scope address session hroom => ?_
  simp only [runInside, hkind, hchildren, walkAll_nil]
  exact ⟨rfl, (Nat.min_eq_right hroom.rounds).symm⟩

end Statements

/-! ## Loops without end -/

section Loop

variable {options : WalkOptions} {height : Nat} {cost : Nat → Nat} {parts : LoopParts Unit}
  (hcondition : AlwaysHolds parts.condition) (htidy : ∀ inner, Tidy (parts.body inner))
  (hbody : ∀ inner session, HasRoom options height session →
    Adds options session (cost session.budget) (parts.body inner session))

include htidy hbody

theorem adds_runBody (budget : Nat) {session : Session Unit} (hroom : HasRoom options height session)
    (hrounds : session.rounds < options.maxRounds) :
    Adds options session (cost budget + 1) (runBody parts budget session) ∧
      HasRoom options height (runBody parts budget session).session := by
  let entered := { session with budget, rounds := session.rounds + 1 }.enter parts.scope
  have hinner := hbody session.environment.nextScope entered
    ⟨by simp [entered, Session.enter], hroom.depth, hrounds⟩
  have hkeeps := keeps_runBody htidy budget hroom.root
  have hadds : Adds options session (cost budget + 1) (runBody parts budget session) := by
    refine ⟨hinner.error, hinner.rounds.trans ?_⟩
    have hcount : entered.rounds + cost entered.budget = session.rounds + (cost budget + 1) := by
      show session.rounds + 1 + cost budget = _
      omega
    rw [hcount]
  refine ⟨hadds, hkeeps.rooted hroom.root, ?_, ?_⟩
  · rw [hkeeps.depth]
    exact hroom.depth
  · rw [hadds.rounds]
    exact Nat.min_le_left _ _

include hcondition

/-- A round of a loop without end, and what comes after it. -/
theorem adds_andThen {next : List Statement → Session Unit → Outcome Unit (List Statement)} {added : Nat}
    (hnext : ∀ marked session, HasRoom options height session →
      Adds options session added (next marked session))
    (budget done : Nat) (marked : List Statement) {session : Session Unit}
    (hroom : HasRoom options height session) :
    Adds options session (cost budget + 1 + added)
      ((oneRound Texts.fresh options parts budget done marked session).andThen next) := by
  have htest := hcondition.test parts.scope session
  by_cases hrounds : options.maxRounds ≤ session.rounds
  · -- All loops have reached the limit, and this one is cut off.
    simp only [oneRound, htest, hrounds, if_true]
    refine ⟨rfl, ?_⟩
    have hmost := hroom.rounds
    show session.rounds = _
    omega
  · obtain ⟨hadds, hafter⟩ := adds_runBody htidy hbody budget hroom (Nat.lt_of_not_le hrounds)
    rw [oneRound_next htest (Nat.lt_of_not_le hrounds) hadds.error]
    have hrest := hnext (Statement.joinAll marked (runBody parts budget session).value) _ hafter
    refine ⟨hrest.error, hrest.rounds.trans ?_⟩
    rw [hadds.rounds]
    omega

theorem adds_allRounds (budget done : Nat) (marked : List Statement) {session : Session Unit}
    (hroom : HasRoom options height session) :
    Adds options session (roundsAround cost budget)
      (allRounds Texts.fresh options parts budget done marked session) := by
  induction budget generalizing done marked session with
  | zero =>
    have hlast (marked : List Statement) (session : Session Unit) (hroom : HasRoom options height session) :
        Adds options session 0 (lastTest Texts.fresh parts (done + 1) marked session) := by
      rw [lastTest, hcondition.test]
      exact ⟨rfl, (Nat.min_eq_right hroom.rounds).symm⟩
    rw [allRounds_zero]
    exact adds_andThen hcondition htidy hbody hlast 0 done marked hroom
  | succ budget ih =>
    rw [allRounds_succ]
    exact adds_andThen hcondition htidy hbody (fun marked session hroom => ih (done + 1) marked hroom)
      (budget + 1) done marked hroom

theorem adds_runLoop (children : List Statement) {session : Session Unit}
    (hroom : HasRoom options height session) :
    Adds options session (roundsAround cost session.budget)
      (runLoop Texts.fresh options parts children session) := by
  have hrounds := adds_allRounds hcondition htidy hbody session.budget 0 children hroom
  exact ⟨hrounds.error, hrounds.rounds⟩

end Loop

theorem costs_whileLoop {options : WalkOptions} {s child : Statement} {height : Nat} {cost : Nat → Nat}
    (hkind : s.kind = .loop) (hcondition : AlwaysHolds s.text)
    (hchildren : s.children = [child]) (hrole : child.role = some .body)
    (h : Costs options child height cost) : Costs options s (height + 1) (roundsAround cost) := by
  refine .of_runInside fun scope address session hroom => ?_
  simp only [runInside, hkind]
  refine adds_runLoop ?_ (fun inner => ?_) (fun inner session hroom => ?_) s.children hroom
  · exact hcondition
  · exact tidy_sequence Texts.fresh options inner (some .body) address 0 s.children
  · simp only [loopParts, hchildren]
    exact h.walkAll (by simp [runs, hrole]) inner address hroom

/-! ## Nested loops -/

/-- A statement inside so many loops without end. -/
def nested (text : String) : Nat → Statement
  | 0 => .plain text
  | depth + 1 => .whileLoop "true" [nested text depth]

theorem costs_nested (options : WalkOptions) (text : String) (depth : Nat) (role : Option Statement.Role) :
    Costs options { nested text depth with role } (depth + 1) (nestedRounds depth) := by
  -- A loop gives its body a role that the same statement does not have at the top.
  induction depth generalizing role with
  | zero => exact costs_plain rfl rfl
  | succ depth ih => exact costs_whileLoop rfl alwaysHolds_true rfl rfl (ih (some .body))

/-- Loops without end that stand inside one another are walked with success, and the number of their rounds
is one less than a binomial coefficient, or the limit of rounds if that is reached. -/
theorem annotate_nested (options : WalkOptions) (inputs : List Value) (text : String) (depth : Nat)
    (h : depth + 2 ≤ options.maxDepth) :
    let tree := Statement.program [nested text depth]
    let session := Session.start options inputs ({} : ParsedTexts)
    let rounds := min options.maxRounds ((options.unrollBudget + depth + 1).choose depth - 1)
    (∃ marked summary, annotate options inputs tree = (marked, .ok summary)) ∧
      (walkTree Texts.remembered options tree session).session.rounds = rounds ∧
      bodiesIn (runsOfTree Texts.remembered options tree session) = rounds := by
  intro tree session rounds
  have hchildren : tree.children = [{ nested text depth with role := none }] := by
    cases depth <;> rfl
  have hadds : Adds options (Session.start options inputs ()) (nestedRounds depth options.unrollBudget)
      (walkTree Texts.fresh options tree (Session.start options inputs ())) := by
    have hroom : HasRoom options (depth + 1 + 1) { Session.start options inputs () with trees := 1 } :=
      ⟨Nat.one_pos, show 0 + (depth + 1 + 1) ≤ options.maxDepth by omega, Nat.zero_le _⟩
    have hwalk := costs_sequence rfl hchildren (costs_nested options text depth none) 0 [0] _ hroom
    exact ⟨hwalk.error, hwalk.rounds⟩
  obtain ⟨memory, hfresh⟩ := walkTree_fresh options inputs tree
  rw [hfresh] at hadds
  have hrounds : (walkTree Texts.remembered options tree session).session.rounds = rounds := by
    have hchoose := nestedRounds_eq_choose depth options.unrollBudget
    have hstart : (Session.start options inputs ()).rounds = 0 := rfl
    refine hadds.rounds.trans ?_
    rw [hstart, Nat.zero_add, ← Nat.add_sub_cancel (nestedRounds depth options.unrollBudget) 1, hchoose]
  have hcounted : (walkTree Texts.remembered options tree session).session.rounds =
      0 + 0 + bodiesIn (runsOfTree Texts.remembered options tree session) :=
    (ledger_walk Texts.remembered options tree 0 [0] { session with trees := 1 }).rounds
  refine ⟨⟨_, _, conclude_eq_ok_iff.mpr ⟨hadds.error, rfl, rfl⟩⟩, hrounds, ?_⟩
  omega

/-- Four rounds of the outer loop, with four, three, two and one rounds of the inner one. A limit of seven
cuts off both. -/
theorem annotate_nested_two :
    let tree := Statement.program [nested "tick()" 2]
    let runsWith (options : WalkOptions) :=
      runsOfTree Texts.remembered options tree (Session.start options [] {})
    (∃ marked summary, annotate { unrollBudget := 3 } [] tree = (marked, .ok summary)) ∧
      bodiesIn (runsWith { unrollBudget := 3 }) = 4 + (4 + 3 + 2 + 1) ∧
      bodiesIn (runsWith { unrollBudget := 3, maxRounds := 7 }) = 7 := by
  obtain ⟨hwalked, -, hall⟩ := annotate_nested { unrollBudget := 3 } [] "tick()" 2 (by decide)
  obtain ⟨-, -, hlimited⟩ :=
    annotate_nested { unrollBudget := 3, maxRounds := 7 } [] "tick()" 2 (by decide)
  exact ⟨hwalked, hall, hlimited⟩

end FlowPath.Path
