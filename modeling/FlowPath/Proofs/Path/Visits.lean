import FlowPath.Proofs.Environment.Stack
import FlowPath.Proofs.Path.Checked
import FlowPath.Proofs.Path.LoopRuns

/-!
# Where a walk comes to

A walk comes to a statement in some scope and with some session. `Reached` says with which: those of whole
trees, walked one after the other in the root scope, and from there those of the children that are walked in
turn. It follows the walk step by step and takes the sessions from it. Wherever a walk comes to, the scopes
stand one in the other and the statement is walked in the innermost of them (`Reached.isInnermost`).
-/

namespace FlowPath

variable {μ : Type}

/-- A statement that is walked: where, and in which session. -/
structure Visit (μ : Type) where
  scope : Nat
  address : Address
  statement : Statement
  session : Session μ

/-- The session while the statement is walked, which counts it. -/
def Visit.counted (visit : Visit μ) : Session μ :=
  { visit.session with depth := visit.session.depth + 1 }

namespace Path

open Statement (Role)

variable (texts : Texts μ) (options : WalkOptions)

/-- Walking a sequence comes to a statement of it, after all before it that run were walked without an
error. -/
inductive ComesTo (scope : Nat) (role : Option Role) (address : Address) :
    Nat → List Statement → Session μ → Visit μ → Prop where
  | here {index : Nat} {s : Statement} {rest : List Statement} {session : Session μ}
    (hruns : runs role s = true) :
    ComesTo scope role address index (s :: rest) session
      { scope, address := index :: address, statement := s, session }
  | skip {index : Nat} {s : Statement} {rest : List Statement} {session : Session μ} {visit : Visit μ}
    (hruns : runs role s = false) (h : ComesTo scope role address (index + 1) rest session visit) :
    ComesTo scope role address index (s :: rest) session visit
  | later {index : Nat} {s : Statement} {rest : List Statement} {session : Session μ} {visit : Visit μ}
    (hruns : runs role s = true)
    (hwalked : (walk texts options scope (index :: address) s session).error = none)
    (h : ComesTo scope role address (index + 1) rest
      (walk texts options scope (index :: address) s session).session visit) :
    ComesTo scope role address index (s :: rest) session visit

/-- The walk of a statement goes on to its children: in this scope, to those with the role if one is given,
and with this session. A loop does so in every round. -/
inductive GoesInside (visit : Visit μ) : Nat → Option Role → Session μ → Prop where
  | function {bound : Session μ} (hkind : visit.statement.kind = .function)
    (hbound : visit.counted.bindParameters options
      ((Statement.nameInHead? visit.statement.text).getD Session.anonymous) visit.scope
      (Statement.parameterNames visit.statement.text) = (.ok (), bound)) :
    GoesInside visit visit.scope none bound
  | conditional {holds : Bool} {tested : Session μ} (hkind : visit.statement.kind = .conditional)
    (htest : visit.counted.test texts visit.statement.text visit.scope = (.ok holds, tested)) :
    GoesInside visit tested.environment.nextScope (some (if holds then .consequent else .alternate))
      (tested.enter visit.scope)
  -- Which loops ran in the rounds before does not matter, so none are listed.
  | loop {bodies : List (List LoopRun)} {last tested : Session μ} (hkind : visit.statement.kind = .loop)
    (hgoes : GoesRound texts options
      (loopParts texts options visit.scope visit.address visit.statement) (fun _ _ => [])
      visit.session.budget visit.counted bodies last)
    (hbudget : bodies.length ≤ visit.session.budget)
    (htest : last.test texts visit.statement.text visit.scope = (.ok true, tested))
    (hrounds : tested.rounds < options.maxRounds) :
    GoesInside visit tested.environment.nextScope (some .body)
      ({ tested with
        budget := visit.session.budget - bodies.length
        rounds := tested.rounds + 1 }.enter visit.scope)
  | sequence (hkind : visit.statement.kind = .returning ∨ visit.statement.kind = .other) :
    GoesInside visit visit.scope none visit.counted

/-- The statements that are come to when trees are walked one after the other, whether or not the walks end
with an error. -/
inductive Reached : Visit μ → Prop where
  | tree (inputs : List Value) (memory : μ) (earlier : List Statement) (tree : Statement)
    {session : Session μ}
    (hsession : sessionAfter texts options (Session.start options inputs memory) earlier = session) :
    Reached
      { scope := 0
        address := [session.trees]
        statement := tree
        session := { session with trees := session.trees + 1 } }
  | inside {visit next : Visit μ} {scope : Nat} {role : Option Role} {session : Session μ}
    (h : Reached visit) (hdepth : visit.session.depth < options.maxDepth)
    (hgoes : GoesInside texts options visit scope role session)
    (hcomes : ComesTo texts options scope role visit.address 0 visit.statement.children session next) :
    Reached next

variable {texts options}

/-! ## The scope of a visit -/

/-- The scopes stand one in the other, and this one is the innermost. -/
structure IsInnermost (scope : Nat) (session : Session μ) : Prop where
  stacked : session.environment.Stacked
  scope_eq : session.environment.innermost = scope

section IsInnermost

variable {scope : Nat} {session after : Session μ}

theorem IsInnermost.of_keeps (h : IsInnermost scope session) (hkeeps : session.Keeps after) :
    IsInnermost scope after :=
  ⟨h.stacked.of_extends hkeeps.environment, hkeeps.environment.innermost.trans h.scope_eq⟩

theorem IsInnermost.size_eq (h : IsInnermost scope session) : session.environment.size = scope + 1 := by
  have hsize := h.stacked.size_pos
  rw [← h.scope_eq, Environment.innermost]
  omega

/-- A new scope is the innermost one. -/
theorem IsInnermost.enter (h : IsInnermost scope session) :
    IsInnermost session.environment.nextScope (session.enter scope) := by
  obtain ⟨hstacked, rfl⟩ := h
  refine ⟨hstacked.enter, ?_⟩
  rw [Environment.innermost, Session.enter, Environment.enter_size]
  rfl

/-- A loop that went round is where it was. -/
theorem GoesRound.keeps {parts : LoopParts μ} {inside : Nat → Session μ → List LoopRun} {budget : Nat}
    {bodies : List (List LoopRun)} (hbody : ∀ inner, Tidy (parts.body inner))
    (h : GoesRound texts options parts inside budget session bodies after)
    (hroot : 0 < session.environment.size) : session.Keeps after := by
  induction h with
  | start => exact .refl _
  | @round budget session tested last bodies htest hrounds herror rest ih =>
    have htested := session.preserves_test texts parts.condition parts.scope
    rw [htest] at htested
    have hround := htested.toKeeps.trans (keeps_runBody hbody budget (htested.rooted hroot))
    exact hround.trans (ih (hround.rooted hroot))

theorem ComesTo.isInnermost {role : Option Role} {address : Address} {index : Nat}
    {statements : List Statement} {visit : Visit μ}
    (h : ComesTo texts options scope role address index statements session visit)
    (hinner : IsInnermost scope session) : IsInnermost visit.scope visit.session := by
  induction h with
  | here => exact hinner
  | skip _ _ ih => exact ih hinner
  | @later index s rest session visit _ _ _ ih =>
    have hwalked := tidy_walk texts options s scope (index :: address) session hinner.stacked.size_pos
    exact ih (hinner.of_keeps hwalked.toKeeps)

theorem GoesInside.isInnermost {visit : Visit μ} {role : Option Role}
    (h : GoesInside texts options visit scope role session)
    (hinner : IsInnermost visit.scope visit.session) : IsInnermost scope session := by
  have hcounted : IsInnermost visit.scope visit.counted := ⟨hinner.stacked, hinner.scope_eq⟩
  cases h with
  | function _ hbound =>
    have hkept := visit.counted.preserves_bindParameters options
      ((Statement.nameInHead? visit.statement.text).getD Session.anonymous) visit.scope
      (Statement.parameterNames visit.statement.text)
    rw [hbound] at hkept
    exact hcounted.of_keeps hkept.toKeeps
  | conditional _ htest =>
    have hkept := visit.counted.preserves_test texts visit.statement.text visit.scope
    rw [htest] at hkept
    exact (hcounted.of_keeps hkept.toKeeps).enter
  | @loop bodies last tested _ hgoes _ htest _ =>
    have hbody (inner : Nat) :
        Tidy ((loopParts texts options visit.scope visit.address visit.statement).body inner) :=
      tidy_sequence texts options inner (some .body) visit.address 0 visit.statement.children
    have hlast := hcounted.of_keeps (hgoes.keeps hbody hcounted.stacked.size_pos)
    have hkept := last.preserves_test texts visit.statement.text visit.scope
    rw [htest] at hkept
    obtain ⟨hstacked, hscope⟩ := hlast.of_keeps hkept.toKeeps
    have hfunded : IsInnermost visit.scope { tested with
        budget := visit.session.budget - bodies.length
        rounds := tested.rounds + 1 } := ⟨hstacked, hscope⟩
    exact hfunded.enter
  | sequence => exact hcounted

/-- Statements are walked in the innermost scope. -/
theorem Reached.isInnermost {visit : Visit μ} (h : Reached texts options visit) :
    IsInnermost visit.scope visit.session := by
  induction h with
  | @tree inputs memory earlier tree session hsession =>
    have hstart : IsInnermost 0 (Session.start options inputs memory) :=
      ⟨Environment.stacked_start, rfl⟩
    have hkept := preserves_sessionAfter texts options earlier hstart.stacked.size_pos
    rw [hsession] at hkept
    obtain ⟨hstacked, hscope⟩ := hstart.of_keeps hkept.toKeeps
    exact ⟨hstacked, hscope⟩
  | inside _ _ hgoes hcomes ih => exact hcomes.isInnermost (hgoes.isInnermost ih)

end IsInnermost

end Path

end FlowPath
