import FlowPath.Proofs.Path.Lockstep

/-!
# Runs without bounds

`Exec` says what a program does when nothing bounds it: a loop goes round until its condition does not
hold, however often that is, and statements may be nested as deeply as they are. The statements are
marked in place, so a round of a loop starts from the marks of the rounds before. A run that goes on
forever or comes to an error has no derivation.

The state of a run is a `Store`; `Session.store` is the part of a session that a run is about. The
lemmas here say how the steps of a walk act on it.
-/

namespace FlowPath

open Statement (Role)

/-- The variables of a run and the inputs that are left. -/
structure Store where
  environment : Environment := {}
  inputs : List Value

namespace Store

def enter (store : Store) (scope : Nat) : Store :=
  { store with environment := store.environment.enter scope }

def exit (store : Store) (scope : Nat) : Store :=
  { store with environment := store.environment.exit scope }

/-- The variables of the root scope. -/
def bindings (store : Store) : Frame := (store.environment.frame? 0).getD []

/-- The condition has a value in the scope, and that counts as `holds`. -/
def Tests (store : Store) (scope : Nat) (condition : String) (holds : Bool) : Prop :=
  ∃ parsed, parseExpression condition = .ok parsed ∧
    (parsed.root.eval (store.environment.view scope)).isTrue = holds

end Store

/-- The inputs go to the parameters in turn. Parameters without an input are `undefined`, unless runs
are strict. -/
inductive Binds (strict : Bool) (scope : Nat) : List String → Store → Store → Prop where
  | done {σ : Store} : Binds strict scope [] σ σ
  | given {parameter : String} {rest : List String} {env : Environment} {value : Value}
      {inputs : List Value} {σ' : Store}
      (h : Binds strict scope rest ⟨env.declare scope parameter value, inputs⟩ σ') :
      Binds strict scope (parameter :: rest) ⟨env, value :: inputs⟩ σ'
  | missing {parameter : String} {rest : List String} {env : Environment} {σ' : Store}
      (lax : strict = false) (h : Binds strict scope rest ⟨env.declare scope parameter .undefined, []⟩ σ') :
      Binds strict scope (parameter :: rest) ⟨env, []⟩ σ'

mutual

/-- In the scope the statement `s` runs from `σ` to `σ'` and becomes `s'` by its marks. -/
inductive Exec (strict : Bool) : Nat → Statement → Store → Statement → Store → Prop where
  | function {scope : Nat} {s : Statement} {σ σ₁ σ' : Store} {children : List Statement}
      (kind : s.kind = .function)
      (binds : Binds strict scope (Statement.parameterNames s.text) σ σ₁)
      (run : ExecAll strict scope none s.children σ₁ children σ') :
      Exec strict scope s σ { s with onPath := true, children } σ'
  | assignment {scope : Nat} {s : Statement} {σ : Store} {parsed : Parsed} {env : Environment}
      (kind : s.kind = .assignment) (parse : parseAssignment s.text = .ok parsed)
      (assign : Session.assignParsed s.text parsed scope σ.environment = .ok env) :
      Exec strict scope s σ { s with onPath := true } { σ with environment := env }
  | conditional {scope : Nat} {s : Statement} {σ σ' : Store} {holds : Bool} {children : List Statement}
      (kind : s.kind = .conditional) (tests : σ.Tests scope s.text holds)
      (run : ExecAll strict σ.environment.nextScope
        (some (if holds then .consequent else .alternate)) s.children (σ.enter scope) children σ') :
      Exec strict scope s σ { s with onPath := true, children } (σ'.exit σ.environment.nextScope)
  | loop {scope : Nat} {s : Statement} {σ σ' : Store} {children : List Statement}
      (kind : s.kind = .loop) (run : ExecLoop strict scope s.text s.children σ children σ') :
      Exec strict scope s σ { s with onPath := true, children } σ'
  | sequence {scope : Nat} {s : Statement} {σ σ' : Store} {children : List Statement}
      (kind : s.kind = .returning ∨ s.kind = .other)
      (run : ExecAll strict scope none s.children σ children σ') :
      Exec strict scope s σ { s with onPath := true, children } σ'

/-- The statements of a sequence that play the role run one after the other. -/
inductive ExecAll (strict : Bool) :
    Nat → Option Role → List Statement → Store → List Statement → Store → Prop where
  | nil {scope : Nat} {role : Option Role} {σ : Store} : ExecAll strict scope role [] σ [] σ
  | run {scope : Nat} {role : Option Role} {s s' : Statement} {rest rest' : List Statement}
      {σ σ₁ σ' : Store} (runs : Path.runs role s = true) (first : Exec strict scope s σ s' σ₁)
      (others : ExecAll strict scope role rest σ₁ rest' σ') :
      ExecAll strict scope role (s :: rest) σ (s' :: rest') σ'
  | skip {scope : Nat} {role : Option Role} {s : Statement} {rest rest' : List Statement}
      {σ σ' : Store} (runs : Path.runs role s = false)
      (others : ExecAll strict scope role rest σ rest' σ') :
      ExecAll strict scope role (s :: rest) σ (s :: rest') σ'

/-- The body runs, in a scope of its own, as long as the condition holds. -/
inductive ExecLoop (strict : Bool) :
    Nat → String → List Statement → Store → List Statement → Store → Prop where
  | done {scope : Nat} {condition : String} {children : List Statement} {σ : Store}
      (tests : σ.Tests scope condition false) :
      ExecLoop strict scope condition children σ children σ
  | round {scope : Nat} {condition : String} {children marked final : List Statement}
      {σ σ₁ σ' : Store} (tests : σ.Tests scope condition true)
      (body : ExecAll strict σ.environment.nextScope (some .body) children (σ.enter scope) marked σ₁)
      (others : ExecLoop strict scope condition marked (σ₁.exit σ.environment.nextScope) final σ') :
      ExecLoop strict scope condition children σ final σ'

end

/-! ## Sessions and stores -/

/-- The state of the program in a session. -/
def Session.store {μ : Type} (session : Session μ) : Store where
  environment := session.environment
  inputs := session.inputs

/-- The session with the program in another state. -/
def Session.withStore {μ : Type} (session : Session μ) (store : Store) : Session μ :=
  { session with environment := store.environment, inputs := store.inputs }

/-- The session with the program in another state, after so many rounds of loops. -/
def Session.advance {μ : Type} (session : Session μ) (store : Store) (rounds : Nat) : Session μ :=
  { session.withStore store with rounds := session.rounds + rounds }

section Advance

variable {μ : Type} (session : Session μ) (store : Store) (rounds : Nat)

@[simp] theorem Session.advance_advance (store' : Store) (rounds' : Nat) :
    (session.advance store rounds).advance store' rounds' = session.advance store' (rounds + rounds') := by
  simp [Session.advance, Session.withStore, Nat.add_assoc]

end Advance

namespace Path

variable {session after : Session Unit} {scope : Nat}

theorem test_fresh_eq_ok_iff {condition : String} {holds : Bool} :
    session.test Texts.fresh condition scope = (.ok holds, after) ↔
      session.store.Tests scope condition holds ∧ after = session := by
  unfold Session.test Store.Tests
  simp only [Texts.fresh]
  rcases parseExpression condition with e | parsed
  · simp
  · simp only [Prod.mk.injEq, Except.ok.injEq, exists_eq_left']
    exact and_congr_right fun _ => eq_comm

theorem assign_fresh_eq_ok_iff {text : String} :
    session.assign Texts.fresh text scope = (.ok (), after) ↔
      ∃ parsed env, parseAssignment text = .ok parsed ∧
        Session.assignParsed text parsed scope session.environment = .ok env ∧
        after = { session with environment := env } := by
  unfold Session.assign
  simp only [Texts.fresh]
  rcases hparse : parseAssignment text with e | parsed
  · simp
  · rcases hassign : Session.assignParsed text parsed scope session.environment with e | env
    · simp [hassign]
    · simp [hassign, eq_comm]

theorem bindParameters_eq_ok_iff {options : WalkOptions} {name : String} {parameters : List String} :
    session.bindParameters options name scope parameters = (.ok (), after) ↔
      ∃ store, Binds options.strictInputs scope parameters session.store store ∧
        after = session.withStore store := by
  induction parameters generalizing session with
  | nil =>
    simp only [Session.bindParameters, Prod.mk.injEq, true_and]
    constructor
    · rintro rfl
      exact ⟨_, .done, rfl⟩
    · rintro ⟨store, hbinds, rfl⟩
      cases hbinds
      rfl
  | cons parameter rest ih =>
    obtain ⟨env, inputs, budget, rounds, depth, trees, truncated, memory⟩ := session
    rcases inputs with _ | ⟨value, inputs⟩
    · cases hstrict : options.strictInputs with
      | true =>
        simp only [Session.bindParameters, hstrict, if_true]
        constructor
        · intro h
          cases h
        · rintro ⟨store, hbinds, -⟩
          cases hbinds
          contradiction
      | false =>
        simp only [Session.bindParameters, hstrict, Bool.false_eq_true, if_false, ih]
        constructor
        · rintro ⟨store, hbinds, rfl⟩
          exact ⟨store, .missing rfl hbinds, rfl⟩
        · rintro ⟨store, hbinds, rfl⟩
          cases hbinds with
          | missing _ h => exact ⟨store, h, rfl⟩
    · simp only [Session.bindParameters, ih]
      constructor
      · rintro ⟨store, hbinds, rfl⟩
        exact ⟨store, .given hbinds, rfl⟩
      · rintro ⟨store, hbinds, rfl⟩
        cases hbinds with
        | given h => exact ⟨store, h, rfl⟩

end Path

end FlowPath
