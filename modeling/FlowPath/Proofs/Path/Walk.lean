import FlowPath.Path.Summary
import FlowPath.Proofs.Statement.Marks

/-!
# Walks, step by step

What `walk` does with a statement, apart from the depth it counts and the mark it sets, is `runInside`;
`walk_eq` puts the two together. `LoopRule.allRounds` is the rule for loops: what the rounds lead to,
from an invariant that every round keeps.
-/

namespace FlowPath.Path

open Statement (Role joinAll)

variable {μ : Type} (texts : Texts μ) (options : WalkOptions)

/-- The parts of a loop statement. -/
def loopParts (scope : Nat) (address : Address) (s : Statement) : LoopParts μ where
  condition := s.text
  address := address
  scope := scope
  body inside session := walkAll texts options inside (some .body) address 0 s.children session

/-- Runs what a statement says, in a session that counts it already. -/
def runInside (scope : Nat) (address : Address) (s : Statement) (session : Session μ) :
    Outcome μ (List Statement) :=
  match s.kind with
  | .function =>
    let name := (Statement.nameInHead? s.text).getD Session.anonymous
    match session.bindParameters options name scope (Statement.parameterNames s.text) with
    | (.error e, session) => { value := s.children, session, error := some e }
    | (.ok (), session) => walkAll texts options scope none address 0 s.children session
  | .assignment =>
    match session.assign texts s.text scope with
    | (.error e, session) => { value := s.children, session, error := some e }
    | (.ok (), session) => { value := s.children, session, error := none }
  | .conditional =>
    match session.test texts s.text scope with
    | (.error e, session) => { value := s.children, session, error := some e }
    | (.ok holds, session) =>
      let taken := if holds then Role.consequent else Role.alternate
      let inside := session.environment.nextScope
      let outcome :=
        walkAll texts options inside (some taken) address 0 s.children (session.enter scope)
      { outcome with session := outcome.session.exit inside }
  | .loop => runLoop texts options (loopParts texts options scope address s) s.children session
  | .returning | .other => walkAll texts options scope none address 0 s.children session

variable {texts options}

theorem walk_tooDeep {scope : Nat} {address : Address} {s : Statement} {session : Session μ}
    (h : options.maxDepth ≤ session.depth) :
    walk texts options scope address s session =
      { value := s, session, error := some (.tooDeep options.maxDepth) } := by
  obtain ⟨kind, text, role, onPath, children⟩ := s
  rw [walk, if_pos h]

theorem walk_eq {scope : Nat} {address : Address} {s : Statement} {session : Session μ}
    (h : ¬ options.maxDepth ≤ session.depth) :
    walk texts options scope address s session =
      let inner :=
        runInside texts options scope address s { session with depth := session.depth + 1 }
      { value := { s with onPath := true, children := inner.value }
        session := { inner.session with depth := inner.session.depth - 1 }
        error := inner.error } := by
  obtain ⟨kind, text, role, onPath, children⟩ := s
  rw [walk, if_neg h]
  cases kind <;> rfl

/-! ## Sequences -/

section Sequence

variable {scope : Nat} {role : Option Role} {address : Address} {index : Nat} {s : Statement}
  {rest : List Statement} {session : Session μ}

theorem walkAll_nil :
    walkAll texts options scope role address index [] session = { value := [], session, error := none } := by
  rw [walkAll]

theorem walkAll_skip (h : runs role s = false) :
    walkAll texts options scope role address index (s :: rest) session =
      let others := walkAll texts options scope role address (index + 1) rest session
      { others with value := s :: others.value } := by
  rw [walkAll, h]; rfl

theorem walkAll_error (h : runs role s = true) {e : WalkError}
    (he : (walk texts options scope (index :: address) s session).error = some e) :
    walkAll texts options scope role address index (s :: rest) session =
      let first := walk texts options scope (index :: address) s session
      { value := first.value :: rest, session := first.session, error := some e } := by
  rw [walkAll, if_pos h]
  simp only [he]

theorem walkAll_run (h : runs role s = true)
    (he : (walk texts options scope (index :: address) s session).error = none) :
    walkAll texts options scope role address index (s :: rest) session =
      let first := walk texts options scope (index :: address) s session
      let others := walkAll texts options scope role address (index + 1) rest first.session
      { others with value := first.value :: others.value } := by
  rw [walkAll, if_pos h]
  simp only [he]

end Sequence

/-! ## Loops -/

/-- Goes on after a round unless the loop ended with it. -/
def RoundResult.andThen (result : RoundResult μ)
    (next : List Statement → Session μ → Outcome μ (List Statement)) : Outcome μ (List Statement) :=
  match result with
  | .stop outcome => outcome
  | .next marked session => next marked session

theorem recordCut_ne_nil (address : Address) (condition : String) (iterations : Nat)
    (known : List (Address × TruncatedLoop)) :
    Session.recordCut address condition iterations known ≠ [] := by
  cases known with
  | nil => exact List.cons_ne_nil _ _
  | cons cut rest =>
    unfold Session.recordCut
    split <;> exact List.cons_ne_nil _ _

section Loop

variable {parts : LoopParts μ} {done : Nat} {marked : List Statement} {session : Session μ}

theorem oneRound_ended {after : Session μ}
    (htest : session.test texts parts.condition parts.scope = (.ok false, after)) (budget : Nat) :
    oneRound texts options parts budget done marked session =
      .stop { value := marked, session := after, error := none } := by
  rw [oneRound, htest]

theorem oneRound_next {after : Session μ} {budget : Nat}
    (htest : session.test texts parts.condition parts.scope = (.ok true, after))
    (hrounds : after.rounds < options.maxRounds) (hbody : (runBody parts budget after).error = none) :
    oneRound texts options parts budget done marked session =
      .next (joinAll marked (runBody parts budget after).value) (runBody parts budget after).session := by
  simp only [oneRound, htest, Nat.not_le.mpr hrounds, if_false, hbody]

theorem allRounds_zero :
    allRounds texts options parts 0 done marked session =
      (oneRound texts options parts 0 done marked session).andThen
        (lastTest texts parts (done + 1)) := by
  rw [allRounds]; rfl

theorem allRounds_succ (budget : Nat) :
    allRounds texts options parts (budget + 1) done marked session =
      (oneRound texts options parts (budget + 1) done marked session).andThen
        (allRounds texts options parts budget (done + 1)) := by
  rw [allRounds]; rfl

/-- What the rounds of a loop lead to (`Q`), from an invariant (`I`) that every round keeps. A loop ends
because its condition cannot be tested or does not hold, because it is cut off, or because its body
fails. -/
structure LoopRule (texts : Texts μ) (parts : LoopParts μ) (I : List Statement → Session μ → Prop)
    (Q : Outcome μ (List Statement) → Prop) : Prop where
  failed {marked session after e} (hI : I marked session)
    (htest : session.test texts parts.condition parts.scope = (.error e, after)) :
    Q { value := marked, session := after, error := some e }
  ended {marked session after} (hI : I marked session)
    (htest : session.test texts parts.condition parts.scope = (.ok false, after)) :
    Q { value := marked, session := after, error := none }
  cut (done : Nat) {marked session after} (hI : I marked session)
    (htest : session.test texts parts.condition parts.scope = (.ok true, after)) :
    Q { value := marked, session := after.cut parts.address parts.condition done, error := none }
  broken (budget : Nat) {marked session after e} (hI : I marked session)
    (htest : session.test texts parts.condition parts.scope = (.ok true, after))
    (hbody : (runBody parts budget after).error = some e) :
    Q { value := joinAll marked (runBody parts budget after).value
        session := (runBody parts budget after).session
        error := some e }
  round (budget : Nat) {marked session after} (hI : I marked session)
    (htest : session.test texts parts.condition parts.scope = (.ok true, after))
    (hbody : (runBody parts budget after).error = none) :
    I (joinAll marked (runBody parts budget after).value) (runBody parts budget after).session

variable {I : List Statement → Session μ → Prop} {Q : Outcome μ (List Statement) → Prop}

theorem LoopRule.lastTest (h : LoopRule texts parts I Q) (done : Nat) (hI : I marked session) :
    Q (lastTest texts parts done marked session) := by
  unfold Path.lastTest
  split <;> rename_i htest
  · exact h.failed hI htest
  · exact h.ended hI htest
  · exact h.cut done hI htest

theorem LoopRule.andThen (h : LoopRule texts parts I Q) (budget done : Nat) (hI : I marked session)
    {next : List Statement → Session μ → Outcome μ (List Statement)}
    (hnext : ∀ marked session, I marked session → Q (next marked session)) :
    Q ((oneRound texts options parts budget done marked session).andThen next) := by
  unfold oneRound
  split <;> rename_i htest
  · exact h.failed hI htest
  · exact h.ended hI htest
  · split
    · exact h.cut done hI htest
    · dsimp only
      split <;> rename_i hbody
      · exact h.broken budget hI htest hbody
      · exact hnext _ _ (h.round budget hI htest hbody)

theorem LoopRule.allRounds (h : LoopRule texts parts I Q) (budget done : Nat)
    (hI : I marked session) : Q (allRounds texts options parts budget done marked session) := by
  induction budget generalizing done marked session with
  | zero =>
    rw [allRounds_zero]
    exact h.andThen 0 done hI fun _ _ hI => h.lastTest (done + 1) hI
  | succ budget ih =>
    rw [allRounds_succ]
    exact h.andThen (budget + 1) done hI fun _ _ hI => ih (done + 1) hI

end Loop

end FlowPath.Path
