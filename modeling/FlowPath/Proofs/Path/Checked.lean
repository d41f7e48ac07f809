import FlowPath.Proofs.Path.Observed
import FlowPath.Proofs.Path.Upkeep

/-!
# Walks that check what they close

`checkedWalkTree` walks a tree as `walkTree` does and looks at every scope before it is closed: unless that is the
scope opened last, and not the root, there is no result. The check never fails (`closesInOrder_walk`), since what runs
in a scope closes all scopes that it opens. So a walk leaves a session as it should be for the next tree, however it
ended (`walkTree_restores_session`).
-/

namespace FlowPath

variable {μ : Type}

/-- A scope that is about to be closed, and how many scopes are open. -/
structure Closing where
  scope : Nat
  size : Nat
deriving DecidableEq, Repr

/-- The scope is the one opened last, and not the root. -/
def Closing.inOrder (closing : Closing) : Bool := closing.scope != 0 && closing.scope + 1 == closing.size

namespace Path

open Statement (Role)

/-- Notes the scopes that are closed. -/
def closingObserver : Observer μ Closing where
  closing scope session := [{ scope, size := session.environment.size }]

/-- Walks a tree in the root scope and checks all scopes that are closed. -/
def checkedWalkTree (texts : Texts μ) (options : WalkOptions) (tree : Statement) (session : Session μ) :
    Option (Outcome μ Statement) :=
  let walked :=
    observe closingObserver texts options 0 [session.trees] tree { session with trees := session.trees + 1 }
  if walked.2.all Closing.inOrder then some walked.1 else none

/-! ## The check never fails -/

/-- All scopes were closed in order. -/
def InOrder (closings : List Closing) : Prop := ∀ closing ∈ closings, closing.inOrder = true

variable {texts : Texts μ} {options : WalkOptions}

/-- What is done in a session with a root closes all scopes in order. -/
def ClosesInOrder (closings : Session μ → List Closing) : Prop :=
  ∀ session : Session μ, 0 < session.environment.size → InOrder (closings session)

/-- The scope that is opened for the children of a statement is the last one again when they have been walked. -/
theorem inOrder_within {s : Statement} {role : Option Role} {address : Address} {session : Session μ}
    (h : ∀ inner, ClosesInOrder (notesAll closingObserver texts options inner role address 0 s.children))
    (hroot : 0 < session.environment.size) (scope : Nat) :
    InOrder (notesWithin closingObserver texts options role address s session.environment.nextScope
      (session.enter scope)) := by
  have hopen : 0 < (session.enter scope).environment.size := by simp [Session.enter]
  refine List.forall_mem_cons.mpr ⟨?_, h _ _ hopen⟩
  have hinner := tidy_sequence texts options session.environment.nextScope role address 0 s.children _ hopen
  have hlast : session.environment.nextScope + 1 =
      (walkAll texts options session.environment.nextScope role address 0 s.children
        (session.enter scope)).session.environment.size := by
    rw [hinner.environment.size]
    exact (Environment.enter_size session.environment scope).symm
  have hne : session.environment.nextScope ≠ 0 := Nat.ne_of_gt hroot
  simp [Closing.inOrder, hne, hlast]

theorem closesInOrder_loop {s : Statement} {address : Address}
    (h : ∀ inner, ClosesInOrder (notesAll closingObserver texts options inner (some .body) address 0 s.children))
    (scope : Nat) :
    ClosesInOrder (loopNotes texts options (loopParts texts options scope address s)
      (notesWithin closingObserver texts options (some .body) address s) closingObserver) := by
  intro session hroot
  have htidy (inner : Nat) : Tidy ((loopParts texts options scope address s).body inner) :=
    tidy_sequence texts options inner (some .body) address 0 s.children
  have hbodies : ∀ body ∈ (roundNotes texts options (loopParts texts options scope address s)
      (notesWithin closingObserver texts options (some .body) address s) session.budget session).1, InOrder body := by
    refine forall_mem_roundNotes (I := fun now => 0 < now.environment.size) ?_ session.budget hroot
    intro budget now tested hnow htest
    have htested : 0 < tested.environment.size := by
      have hkept := Session.preserves_test texts s.text scope now
      rw [show now.test texts s.text scope = (.ok true, tested) from htest] at hkept
      exact hkept.rooted hnow
    let funded : Session μ := { tested with budget, rounds := tested.rounds + 1 }
    have hfunded : 0 < funded.environment.size := htested
    exact ⟨inOrder_within h hfunded scope, (keeps_runBody htidy budget htested).rooted htested⟩
  intro closing hclosing
  -- Nothing is noted when a loop has ended, so all closings are those in its bodies.
  rw [loopNotes, List.mem_append, List.mem_flatten] at hclosing
  obtain ⟨body, hbody, hmem⟩ := hclosing.resolve_right List.not_mem_nil
  exact hbodies body hbody closing hmem

theorem closesInOrder_walkAll {statements : List Statement}
    (h : ∀ s ∈ statements, ∀ scope address,
      ClosesInOrder (notes closingObserver texts options scope address s))
    (scope : Nat) (role : Option Role) (address : Address) (index : Nat) :
    ClosesInOrder (notesAll closingObserver texts options scope role address index statements) := by
  induction statements generalizing index with
  | nil =>
    intro session _
    rw [notesAll_nil]
    exact List.forall_mem_nil _
  | cons s rest ih =>
    obtain ⟨hfirst, hrest⟩ := List.forall_mem_cons.mp h
    intro session hroot
    cases hruns : runs role s with
    | false =>
      rw [notesAll_skip hruns]
      exact ih hrest (index + 1) session hroot
    | true =>
      have hwalked := tidy_walk texts options s scope (index :: address) session hroot
      rw [notesAll_run hruns]
      refine List.forall_mem_append.mpr ⟨hfirst scope (index :: address) session hroot, ?_⟩
      dsimp only
      split
      · exact List.forall_mem_nil _
      · exact ih hrest (index + 1) _ (hwalked.rooted hroot)

/-- Wherever a walk closes a scope, it is the one opened last and not the root. -/
theorem closesInOrder_walk (texts : Texts μ) (options : WalkOptions) (s : Statement) (scope : Nat)
    (address : Address) : ClosesInOrder (notes closingObserver texts options scope address s) := by
  induction s generalizing scope address with
  | node kind text role onPath children ih =>
    have hchildren := closesInOrder_walkAll ih
    intro session hroot
    by_cases hdepth : options.maxDepth ≤ session.depth
    · rw [notes_tooDeep hdepth]
      exact List.forall_mem_nil _
    rw [notes_eq hdepth]
    generalize hcounted : { session with depth := session.depth + 1 } = counted
    replace hroot : 0 < counted.environment.size := hcounted ▸ hroot
    unfold notesInside
    cases kind with
    | function =>
      have hbound := Session.preserves_bindParameters options
        ((Statement.nameInHead? text).getD Session.anonymous) scope (Statement.parameterNames text) counted
      dsimp only
      split <;> rename_i heq <;> rw [heq] at hbound
      · exact List.forall_mem_nil _
      · exact hchildren scope none address 0 _ (hbound.rooted hroot)
    | assignment => exact List.forall_mem_nil _
    | conditional =>
      have htested := Session.preserves_test texts text scope counted
      dsimp only
      split <;> rename_i heq <;> rw [heq] at htested
      · exact List.forall_mem_nil _
      · exact inOrder_within (fun inner => hchildren inner _ address 0) (htested.rooted hroot) scope
    | loop => exact closesInOrder_loop (fun inner => hchildren inner (some .body) address 0) scope counted hroot
    | returning | other => exact hchildren scope none address 0 counted hroot

theorem checkedWalkTree_eq (texts : Texts μ) (options : WalkOptions) (tree : Statement) {session : Session μ}
    (hroot : 0 < session.environment.size) :
    checkedWalkTree texts options tree session = some (walkTree texts options tree session) := by
  let start := { session with trees := session.trees + 1 }
  have hclosings : InOrder (notes closingObserver texts options 0 [session.trees] tree start) :=
    closesInOrder_walk texts options tree 0 [session.trees] start hroot
  have houtcome := observe_outcome closingObserver texts options 0 [session.trees] tree start
  exact (if_pos (List.all_eq_true.mpr hclosings)).trans (congrArg some houtcome)

/-! ## Tree after tree -/

/-- The session after all trees were walked, whether or not the walks ended with an error. -/
def sessionAfter (texts : Texts μ) (options : WalkOptions) (session : Session μ) (trees : List Statement) :
    Session μ :=
  trees.foldl (fun session tree => (walkTree texts options tree session).session) session

theorem preserves_walkTree (texts : Texts μ) (options : WalkOptions) (tree : Statement)
    {session : Session μ} (hroot : 0 < session.environment.size) :
    session.Preserves (walkTree texts options tree session).session := by
  have hwalked := tidy_walk texts options tree 0 [session.trees]
    { session with trees := session.trees + 1 } hroot
  exact ⟨⟨hwalked.environment, hwalked.depth⟩, hwalked.budget⟩

theorem preserves_sessionAfter (texts : Texts μ) (options : WalkOptions) (trees : List Statement)
    {session : Session μ} (hroot : 0 < session.environment.size) :
    session.Preserves (sessionAfter texts options session trees) := by
  induction trees generalizing session with
  | nil => exact .refl session
  | cons tree rest ih =>
    have hfirst := preserves_walkTree texts options tree hroot
    exact hfirst.trans (ih (hfirst.rooted hroot))

/-- The walk of a tree, after those of any others, leaves the session as it found it: the depth, the
budget and the number of open scopes are as before, no scope was closed out of order and the root was
never closed, and the root still binds its names, in the same order and before all new ones. -/
theorem walkTree_restores_session (texts : Texts μ) (options : WalkOptions) (inputs : List Value)
    (memory : μ) (earlier : List Statement) (tree : Statement) :
    let before := sessionAfter texts options (Session.start options inputs memory) earlier
    let outcome := walkTree texts options tree before
    outcome.session.depth = before.depth ∧ outcome.session.budget = before.budget ∧
      outcome.session.environment.size = before.environment.size ∧
      checkedWalkTree texts options tree before = some outcome ∧
      before.environment.names 0 <+: outcome.session.environment.names 0 := by
  intro before outcome
  have hstart : 0 < (Session.start options inputs memory).environment.size := Nat.one_pos
  have hroot : 0 < before.environment.size :=
    (preserves_sessionAfter texts options earlier hstart).rooted hstart
  have hkept : before.Preserves outcome.session := preserves_walkTree texts options tree hroot
  refine ⟨hkept.depth, hkept.budget, hkept.environment.size, ?_, hkept.environment.names 0⟩
  exact checkedWalkTree_eq texts options tree hroot

end Path

end FlowPath
