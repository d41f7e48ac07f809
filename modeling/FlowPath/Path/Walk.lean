import FlowPath.Path.Session
import FlowPath.Statement.Marks

/-!
# Walking a program

A walk goes through a tree of statements as the program would run, and marks every statement that it
comes to. Functions give the inputs to their parameters and run their statements, assignments change
the variables, a conditional runs the branch that its condition chooses in a scope of its own, and a
loop runs its body in a new scope as long as its condition holds. A walk that ends with an error
keeps the marks it made.

Loops are bounded. The budget of a loop is what is left where it starts, and it loses one with every
round, for the loops inside as well; the loop is cut off when its condition still holds after a
round without budget. All loops of a session together go at most `maxRounds` rounds.
-/

namespace FlowPath

/-- What a walk leaves: the marked statements, the session and the error that ended it. -/
structure Outcome (μ α : Type) where
  value : α
  session : Session μ
  error : Option WalkError

namespace Path

open Statement (Role joinAll)

variable {μ : Type}

/-- What a round of a loop leads to. -/
inductive RoundResult (μ : Type) where
  /-- The loop ends. -/
  | stop (outcome : Outcome μ (List Statement))
  /-- The loop goes on after the round. -/
  | next (marked : List Statement) (session : Session μ)

/-- A loop: its condition, its address, the scope around it, and how its body runs in a scope. -/
structure LoopParts (μ : Type) where
  condition : String
  address : Address
  scope : Nat
  body : Nat → Session μ → Outcome μ (List Statement)

/-- Runs the body once, in a scope of its own and with the given budget. -/
def runBody (parts : LoopParts μ) (budget : Nat) (session : Session μ) :
    Outcome μ (List Statement) :=
  let inside := session.environment.nextScope
  let entered := { session with budget, rounds := session.rounds + 1 }.enter parts.scope
  let outcome := parts.body inside entered
  { outcome with session := outcome.session.exit inside }

/-- One round: the test of the condition, and the body if the condition holds. `marked` are the
children with the marks of the rounds before. -/
def oneRound (texts : Texts μ) (options : WalkOptions) (parts : LoopParts μ) (budget done : Nat)
    (marked : List Statement) (session : Session μ) : RoundResult μ :=
  match session.test texts parts.condition parts.scope with
  | (.error e, session) => .stop { value := marked, session, error := some e }
  | (.ok false, session) => .stop { value := marked, session, error := none }
  | (.ok true, session) =>
    if options.maxRounds ≤ session.rounds then
      let session := session.cut parts.address parts.condition done
      .stop { value := marked, session, error := none }
    else
      let outcome := runBody parts budget session
      let marked := joinAll marked outcome.value
      match outcome.error with
      | some e => .stop { value := marked, session := outcome.session, error := some e }
      | none => .next marked outcome.session

/-- The test after the last round: a condition that still holds is cut off. -/
def lastTest (texts : Texts μ) (parts : LoopParts μ) (done : Nat) (marked : List Statement)
    (session : Session μ) : Outcome μ (List Statement) :=
  match session.test texts parts.condition parts.scope with
  | (.error e, session) => { value := marked, session, error := some e }
  | (.ok false, session) => { value := marked, session, error := none }
  | (.ok true, session) =>
    { value := marked, session := session.cut parts.address parts.condition done, error := none }

/-- The rounds of a loop: as many as the budget, and one more. -/
def allRounds (texts : Texts μ) (options : WalkOptions) (parts : LoopParts μ) :
    Nat → Nat → List Statement → Session μ → Outcome μ (List Statement)
  | 0, done, marked, session =>
    match oneRound texts options parts 0 done marked session with
    | .stop outcome => outcome
    | .next marked session => lastTest texts parts (done + 1) marked session
  | budget + 1, done, marked, session =>
    match oneRound texts options parts (budget + 1) done marked session with
    | .stop outcome => outcome
    | .next marked session => allRounds texts options parts budget (done + 1) marked session

/-- A loop with the budget at hand, which it leaves as it was. -/
def runLoop (texts : Texts μ) (options : WalkOptions) (parts : LoopParts μ)
    (children : List Statement) (session : Session μ) : Outcome μ (List Statement) :=
  let outcome := allRounds texts options parts session.budget 0 children session
  { outcome with session := { outcome.session with budget := session.budget } }

/-- The children that run: all of them, or those that play a role. -/
def runs (role : Option Role) (child : Statement) : Bool :=
  match role with
  | none => true
  | some role => child.role == some role

mutual

/-- Walks a statement in a scope. -/
def walk (texts : Texts μ) (options : WalkOptions) (scope : Nat) (address : Address) :
    Statement → Session μ → Outcome μ Statement
  | ⟨kind, text, role, onPath, children⟩, session =>
    if options.maxDepth ≤ session.depth then
      { value := ⟨kind, text, role, onPath, children⟩
        session
        error := some (.tooDeep options.maxDepth) }
    else
      let session := { session with depth := session.depth + 1 }
      let inner : Outcome μ (List Statement) :=
        match kind with
        | .function =>
          let name := (Statement.nameInHead? text).getD Session.anonymous
          match session.bindParameters options name scope (Statement.parameterNames text) with
          | (.error e, session) => { value := children, session, error := some e }
          | (.ok (), session) => walkAll texts options scope none address 0 children session
        | .assignment =>
          match session.assign texts text scope with
          | (.error e, session) => { value := children, session, error := some e }
          | (.ok (), session) => { value := children, session, error := none }
        | .conditional =>
          match session.test texts text scope with
          | (.error e, session) => { value := children, session, error := some e }
          | (.ok holds, session) =>
            let taken := if holds then Role.consequent else Role.alternate
            let inside := session.environment.nextScope
            let outcome :=
              walkAll texts options inside (some taken) address 0 children (session.enter scope)
            { outcome with session := outcome.session.exit inside }
        | .loop =>
          let parts : LoopParts μ :=
            { condition := text
              address
              scope
              body := fun inside session =>
                walkAll texts options inside (some .body) address 0 children session }
          runLoop texts options parts children session
        | .returning => walkAll texts options scope none address 0 children session
        | .other => walkAll texts options scope none address 0 children session
      { value := ⟨kind, text, role, true, inner.value⟩
        session := { inner.session with depth := inner.session.depth - 1 }
        error := inner.error }

/-- Walks the statements of a sequence that run, one after the other up to the first error. They are
numbered from `index` on. -/
def walkAll (texts : Texts μ) (options : WalkOptions) (scope : Nat) (role : Option Role)
    (address : Address) : Nat → List Statement → Session μ → Outcome μ (List Statement)
  | _, [], session => { value := [], session, error := none }
  | index, s :: rest, session =>
    if runs role s then
      let first := walk texts options scope (index :: address) s session
      match first.error with
      | some e => { value := first.value :: rest, session := first.session, error := some e }
      | none =>
        let others := walkAll texts options scope role address (index + 1) rest first.session
        { others with value := first.value :: others.value }
    else
      let others := walkAll texts options scope role address (index + 1) rest session
      { others with value := s :: others.value }

end

/-- Walks a tree in the root scope. -/
def walkTree (texts : Texts μ) (options : WalkOptions) (tree : Statement) (session : Session μ) :
    Outcome μ Statement :=
  walk texts options 0 [session.trees] tree { session with trees := session.trees + 1 }

end Path

end FlowPath
