import FlowPath.Proofs.Path.Observed
import FlowPath.Proofs.Path.Upkeep

/-!
# The runs of loops

A walk comes to a loop statement again and again, and each time the loop runs: it goes round so many times
and ends in one way or another. `loopRuns` lists these runs, in the order in which they end: it is what an observer
notes of a walk that looks at nothing else.

What the rounds of a loop can do is said once, in `roundsTo_allRounds`: the loop goes round with success for
some time (`GoesRound`), and then it ends in one of five ways (`EndsWith`). From there a session's counts are
read off the list (`ledger_walk`): the rounds are the bodies of all runs, and the cuts are those of the runs
that were cut off.
-/

namespace FlowPath

variable {μ : Type}

/-- The loop was cut off. -/
def LoopEnd.isCut : LoopEnd → Bool
  | .spent | .capped => true
  | .ended | .failed => false

namespace LoopRun

/-- How often bodies ran in all the runs together. -/
def bodiesIn : List LoopRun → Nat
  | [] => 0
  | run :: others => run.bodies + bodiesIn others

@[simp] theorem bodiesIn_nil : bodiesIn [] = 0 := rfl

@[simp] theorem bodiesIn_append (runs others : List LoopRun) :
    bodiesIn (runs ++ others) = bodiesIn runs + bodiesIn others := by
  induction runs with
  | nil => rw [List.nil_append, bodiesIn_nil, Nat.zero_add]
  | cons run rest ih => rw [List.cons_append, bodiesIn, bodiesIn, ih, Nat.add_assoc]

@[simp] theorem bodiesIn_singleton (run : LoopRun) : bodiesIn [run] = run.bodies := rfl

theorem bodies_le_bodiesIn {runs : List LoopRun} {run : LoopRun} (h : run ∈ runs) :
    run.bodies ≤ bodiesIn runs := by
  obtain ⟨before, after, rfl⟩ := List.append_of_mem h
  rw [bodiesIn_append, bodiesIn]
  omega

/-- Notes the run if the loop was cut off. -/
def note (known : List (Address × TruncatedLoop)) (run : LoopRun) : List (Address × TruncatedLoop) :=
  if run.ending.isCut then Session.recordCut run.address run.condition run.bodies known else known

end LoopRun

namespace Path

open Statement (Role joinAll)
open LoopRun (bodiesIn)

/-! ## The list -/

/-- Notes the loops that have ended. -/
def loopObserver : Observer μ LoopRun where
  ending run := [run]

theorem ending_loopObserver (run : LoopRun) : (loopObserver : Observer μ LoopRun).ending run = [run] := rfl

section Statements

variable (texts : Texts μ) (options : WalkOptions)

/-- The runs of loops in the walk of a statement, in the order in which they end. -/
def loopRuns (scope : Nat) (address : Address) (s : Statement) (session : Session μ) : List LoopRun :=
  notes loopObserver texts options scope address s session

/-- The runs in the body of a loop statement, in a scope. -/
def runsInBody (address : Address) (s : Statement) (inner : Nat) (session : Session μ) : List LoopRun :=
  notesWithin loopObserver texts options (some .body) address s inner session

/-- The runs in the walk of a tree. -/
def runsOfTree (tree : Statement) (session : Session μ) : List LoopRun :=
  loopRuns texts options 0 [session.trees] tree { session with trees := session.trees + 1 }

end Statements

/-! ## What rounds can do -/

section Rounds

variable (texts : Texts μ) (options : WalkOptions) (parts : LoopParts μ)
  (inside : Nat → Session μ → List LoopRun)

/-- The loop goes round with success from one session to another: each time its condition holds, all loops
together have rounds left, and its body does not fail. The budget is that of the first round, and the list
has the runs in each body. -/
inductive GoesRound : Nat → Session μ → List (List LoopRun) → Session μ → Prop where
  | start {budget : Nat} {session : Session μ} : GoesRound budget session [] session
  | round {budget : Nat} {session tested last : Session μ} {bodies : List (List LoopRun)}
    (htest : session.test texts parts.condition parts.scope = (.ok true, tested))
    (hrounds : tested.rounds < options.maxRounds)
    (hbody : (runBody parts budget tested).error = none)
    (rest : GoesRound (budget - 1) (runBody parts budget tested).session bodies last) :
    GoesRound budget session (bodyNotes parts inside budget tested :: bodies) last

/-- How a loop ends after it went round with success for the last time, with the session and the error that
it leaves. The list has the runs in one more body, if that fails. -/
inductive EndsWith (spent : Prop) (iterations : Nat) (last : Session μ) :
    LoopEnd → List (List LoopRun) → Session μ → Option WalkError → Prop where
  | failed {after : Session μ} {e : WalkError}
    (htest : last.test texts parts.condition parts.scope = (.error e, after)) :
    EndsWith spent iterations last .failed [] after (some e)
  | ended {after : Session μ} (htest : last.test texts parts.condition parts.scope = (.ok false, after)) :
    EndsWith spent iterations last .ended [] after none
  | spent {after : Session μ} (hspent : spent)
    (htest : last.test texts parts.condition parts.scope = (.ok true, after)) :
    EndsWith spent iterations last .spent [] (after.cut parts.address parts.condition iterations) none
  | capped {after : Session μ} (htest : last.test texts parts.condition parts.scope = (.ok true, after))
    (hrounds : options.maxRounds ≤ after.rounds) :
    EndsWith spent iterations last .capped [] (after.cut parts.address parts.condition iterations) none
  | broken (budget : Nat) {after : Session μ} {e : WalkError}
    (htest : last.test texts parts.condition parts.scope = (.ok true, after))
    (hrounds : after.rounds < options.maxRounds)
    (hbody : (runBody parts budget after).error = some e) :
    EndsWith spent iterations last .failed [bodyNotes parts inside budget after]
      (runBody parts budget after).session (some e)

/-- The rounds of a loop from a session on, at most so many and after `done` others: what is listed of them
and the outcome that they have. -/
def RoundsTo (budget most done : Nat) (session : Session μ) (listed : List (List LoopRun) × LoopEnd)
    (outcome : Outcome μ (List Statement)) : Prop :=
  ∃ bodies last more, GoesRound texts options parts inside budget session bodies last ∧
    bodies.length ≤ most ∧ listed.1 = bodies ++ more ∧
    EndsWith texts options parts inside (bodies.length = most) (done + bodies.length) last listed.2 more
      outcome.session outcome.error

variable {texts options parts inside} {budget done : Nat} {marked : List Statement} {session : Session μ}

theorem roundsTo_lastTest (budget : Nat) :
    RoundsTo texts options parts inside budget 0 done session ([], lastEnd texts parts session)
      (lastTest texts parts done marked session) := by
  refine ⟨[], session, [], .start, Nat.le_refl 0, rfl, ?_⟩
  rcases htest : session.test texts parts.condition parts.scope with ⟨_ | _ | _, after⟩ <;>
    simp only [lastEnd, lastTest, htest]
  · exact .failed htest
  · exact .ended htest
  · exact .spent rfl htest

theorem roundsTo_andThen {next : List Statement → Session μ → Outcome μ (List Statement)}
    {listNext : Session μ → List (List LoopRun) × LoopEnd}
    (hnext : ∀ marked session, RoundsTo texts options parts inside (budget - 1) budget (done + 1) session
      (listNext session) (next marked session)) :
    RoundsTo texts options parts inside budget (budget + 1) done session
      (roundThen texts options parts inside budget listNext session)
      ((oneRound texts options parts budget done marked session).andThen next) := by
  rcases htest : session.test texts parts.condition parts.scope with ⟨_ | _ | _, after⟩
  · simp only [roundThen, oneRound, htest]
    exact ⟨[], session, [], .start, Nat.zero_le _, rfl, .failed htest⟩
  · simp only [roundThen, oneRound, htest]
    exact ⟨[], session, [], .start, Nat.zero_le _, rfl, .ended htest⟩
  · by_cases hrounds : options.maxRounds ≤ after.rounds
    · simp only [roundThen, oneRound, htest, hrounds, if_true]
      exact ⟨[], session, [], .start, Nat.zero_le _, rfl, .capped htest hrounds⟩
    · simp only [roundThen, oneRound, htest, hrounds, if_false]
      rcases hbody : (runBody parts budget after).error with _ | e
      · obtain ⟨bodies, last, more, hgoes, hlength, hlisted, hends⟩ :=
          hnext (joinAll marked (runBody parts budget after).value) (runBody parts budget after).session
        have hcount : done + (bodies.length + 1) = done + 1 + bodies.length := by omega
        refine ⟨bodyNotes parts inside budget after :: bodies, last, more,
          .round htest (Nat.lt_of_not_le hrounds) hbody hgoes, Nat.succ_le_succ hlength, ?_, ?_⟩
        · exact congrArg (bodyNotes parts inside budget after :: ·) hlisted
        · simp only [List.length_cons, Nat.add_right_cancel_iff, hcount]
          exact hends
      · exact ⟨[], session, [bodyNotes parts inside budget after], .start, Nat.zero_le _, rfl,
          .broken budget htest (Nat.lt_of_not_le hrounds) hbody⟩

variable (texts options parts inside) in
theorem roundsTo_allRounds (budget done : Nat) (marked : List Statement) (session : Session μ) :
    RoundsTo texts options parts inside budget (budget + 1) done session
      (roundNotes texts options parts inside budget session)
      (allRounds texts options parts budget done marked session) := by
  induction budget generalizing done marked session with
  | zero =>
    rw [allRounds_zero]
    exact roundsTo_andThen fun _ _ => roundsTo_lastTest 0
  | succ budget ih =>
    rw [allRounds_succ]
    exact roundsTo_andThen fun marked session => ih (done + 1) marked session

end Rounds

/-! ## What is counted -/

/-- What the listed runs, and `own` bodies besides, add to the counts of a session. -/
structure Ledger (options : WalkOptions) (own : Nat) (before after : Session μ) (listed : List LoopRun) :
    Prop where
  rounds : after.rounds = before.rounds + own + bodiesIn listed
  most : after.rounds ≤ max before.rounds options.maxRounds
  truncated : after.truncated = listed.foldl LoopRun.note before.truncated

section Ledger

variable {texts : Texts μ} {options : WalkOptions}

theorem ledger_of_sameCounts {before after : Session μ} (h : before.SameCounts after) :
    Ledger options 0 before after [] :=
  ⟨h.rounds, by rw [h.rounds]; exact Nat.le_max_left _ _, h.truncated⟩

theorem Ledger.trans {s₁ s₂ s₃ : Session μ} {own own' : Nat} {listed listed' : List LoopRun}
    (h : Ledger options own s₁ s₂ listed) (h' : Ledger options own' s₂ s₃ listed') :
    Ledger options (own + own') s₁ s₃ (listed ++ listed') where
  rounds := by
    rw [h'.rounds, h.rounds, LoopRun.bodiesIn_append]
    omega
  most := by
    have := h.most
    have := h'.most
    omega
  truncated := by rw [h'.truncated, h.truncated, List.foldl_append]

section Loop

variable {parts : LoopParts μ} {inside : Nat → Session μ → List LoopRun}
  (hbody : ∀ inner session,
    Ledger options 0 session (parts.body inner session).session (inside inner session))

include hbody

theorem ledger_runBody (budget : Nat) {session : Session μ} (hrounds : session.rounds < options.maxRounds) :
    Ledger options 1 session (runBody parts budget session).session
      (bodyNotes parts inside budget session) := by
  let entered := { session with budget, rounds := session.rounds + 1 }.enter parts.scope
  have hinner := hbody session.environment.nextScope entered
  have hstart : entered.rounds = session.rounds + 1 := rfl
  refine ⟨hinner.rounds, ?_, hinner.truncated⟩
  have hmost := hinner.most
  rw [hstart] at hmost
  exact Nat.le_trans hmost (by omega)

theorem GoesRound.ledger {budget : Nat} {session last : Session μ} {bodies : List (List LoopRun)}
    (h : GoesRound texts options parts inside budget session bodies last) :
    Ledger options bodies.length session last bodies.flatten := by
  induction h with
  | start => exact ledger_of_sameCounts ⟨rfl, rfl⟩
  | @round budget session tested last bodies htest hrounds herror rest ih =>
    have htested := session.sameCounts_test texts parts.condition parts.scope
    rw [htest] at htested
    have hround := (ledger_of_sameCounts htested).trans (ledger_runBody hbody budget hrounds)
    have hcount : bodies.length + 1 = 0 + 1 + bodies.length := by omega
    rw [List.length_cons, hcount]
    exact hround.trans ih

theorem EndsWith.ledger {spent : Prop} {iterations : Nat} {last after : Session μ} {ending : LoopEnd}
    {more : List (List LoopRun)} {error : Option WalkError}
    (h : EndsWith texts options parts inside spent iterations last ending more after error) :
    ∃ now, Ledger options more.length last now more.flatten ∧ after.rounds = now.rounds ∧
      after.truncated = LoopRun.note now.truncated
        { address := parts.address
          condition := parts.condition
          bodies := iterations + more.length
          ending } := by
  have htested {result : Except WalkError Bool} {tested : Session μ}
      (htest : last.test texts parts.condition parts.scope = (result, tested)) :
      Ledger options 0 last tested [] := by
    have hsame := last.sameCounts_test texts parts.condition parts.scope
    rw [htest] at hsame
    exact ledger_of_sameCounts hsame
  cases h with
  | failed htest | ended htest => exact ⟨_, htested htest, rfl, rfl⟩
  | spent _ htest | capped htest _ => exact ⟨_, htested htest, rfl, rfl⟩
  | broken budget htest hrounds _ =>
    refine ⟨_, ?_, rfl, rfl⟩
    simpa using (htested htest).trans (ledger_runBody hbody budget hrounds)

theorem ledger_runLoop (children : List Statement) (session : Session μ) :
    Ledger options 0 session (runLoop texts options parts children session).session
      (loopNotes texts options parts inside loopObserver session) := by
  obtain ⟨bodies, last, more, hgoes, -, hlisted, hends⟩ :=
    roundsTo_allRounds texts options parts inside session.budget 0 children session
  obtain ⟨now, hnow, hrounds, htruncated⟩ := hends.ledger hbody
  have hall := (hgoes.ledger hbody).trans hnow
  rw [Nat.zero_add, ← List.length_append, ← hlisted] at htruncated
  rw [← List.length_append, ← List.flatten_append, ← hlisted] at hall
  refine ⟨?_, ?_, ?_⟩
  · rw [loopNotes, LoopRun.bodiesIn_append, ending_loopObserver, LoopRun.bodiesIn_singleton]
    exact hrounds.trans (hall.rounds.trans (by dsimp only; omega))
  · exact Nat.le_trans (Nat.le_of_eq hrounds) hall.most
  · rw [loopNotes, List.foldl_append, ending_loopObserver, ← hall.truncated]
    exact htruncated

end Loop

theorem ledger_walkAll {statements : List Statement}
    (h : ∀ s ∈ statements, ∀ scope address session, Ledger options 0 session
      (walk texts options scope address s session).session (loopRuns texts options scope address s session))
    (scope : Nat) (role : Option Role) (address : Address) (index : Nat) (session : Session μ) :
    Ledger options 0 session (walkAll texts options scope role address index statements session).session
      (notesAll loopObserver texts options scope role address index statements session) := by
  induction statements generalizing index session with
  | nil =>
    rw [walkAll_nil, notesAll_nil]
    exact ledger_of_sameCounts ⟨rfl, rfl⟩
  | cons s rest ih =>
    obtain ⟨hfirst, hrest⟩ := List.forall_mem_cons.mp h
    cases hruns : runs role s with
    | false =>
      rw [walkAll_skip hruns, notesAll_skip hruns]
      exact ih hrest (index + 1) session
    | true =>
      have hwalked := hfirst scope (index :: address) session
      rw [notesAll_run hruns]
      rcases herror : (walk texts options scope (index :: address) s session).error with _ | e
      · rw [walkAll_run hruns herror]
        simp only [herror]
        exact hwalked.trans (ih hrest (index + 1) _)
      · rw [walkAll_error hruns herror]
        simpa only [loopRuns, herror, List.append_nil] using hwalked

theorem ledger_runInside (s : Statement)
    (h : ∀ child ∈ s.children, ∀ scope address session, Ledger options 0 session
      (walk texts options scope address child session).session
      (loopRuns texts options scope address child session))
    (scope : Nat) (address : Address) (session : Session μ) :
    Ledger options 0 session (runInside texts options scope address s session).session
      (notesInside loopObserver texts options scope address s session) := by
  have hchildren := ledger_walkAll h
  unfold runInside notesInside
  cases s.kind with
  | function =>
    have hbound := session.sameCounts_bindParameters options
      ((Statement.nameInHead? s.text).getD Session.anonymous) scope (Statement.parameterNames s.text)
    dsimp only
    generalize session.bindParameters options _ scope _ = bound at hbound
    obtain ⟨_ | _, bound⟩ := bound
    · exact ledger_of_sameCounts hbound
    · exact (ledger_of_sameCounts hbound).trans (hchildren scope none address 0 bound)
  | assignment =>
    have hassigned := session.sameCounts_assign texts s.text scope
    dsimp only
    generalize session.assign texts s.text scope = assigned at hassigned
    obtain ⟨_ | _, assigned⟩ := assigned <;> exact ledger_of_sameCounts hassigned
  | conditional =>
    have htested := session.sameCounts_test texts s.text scope
    dsimp only
    generalize session.test texts s.text scope = tested at htested
    obtain ⟨_ | holds, tested⟩ := tested
    · exact ledger_of_sameCounts htested
    · have hbranch := hchildren tested.environment.nextScope
        (some (if holds then Role.consequent else Role.alternate)) address 0 (tested.enter scope)
      have hopened : Ledger options 0 tested _ _ := ⟨hbranch.rounds, hbranch.most, hbranch.truncated⟩
      have hthrough := (ledger_of_sameCounts htested).trans hopened
      exact ⟨hthrough.rounds, hthrough.most, hthrough.truncated⟩
  | loop =>
    refine ledger_runLoop (fun inner session => ?_) s.children session
    exact hchildren inner (some .body) address 0 session
  | returning | other => exact hchildren scope none address 0 session

/-- The counts after a walk are those of the runs in it. -/
theorem ledger_walk (texts : Texts μ) (options : WalkOptions) (s : Statement) (scope : Nat)
    (address : Address) (session : Session μ) :
    Ledger options 0 session (walk texts options scope address s session).session
      (loopRuns texts options scope address s session) := by
  induction s generalizing scope address session with
  | node kind text role onPath children ih =>
    by_cases hdepth : options.maxDepth ≤ session.depth
    · rw [walk_tooDeep hdepth, loopRuns, notes_tooDeep hdepth]
      exact ledger_of_sameCounts ⟨rfl, rfl⟩
    · rw [walk_eq hdepth, loopRuns, notes_eq hdepth]
      have hinside := ledger_runInside ⟨kind, text, role, onPath, children⟩ ih scope address
        { session with depth := session.depth + 1 }
      exact ⟨hinside.rounds, hinside.most, hinside.truncated⟩

end Ledger

end Path

end FlowPath
