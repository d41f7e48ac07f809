import FlowPath.Proofs.Path.Lockstep

/-!
# Remembered texts

A session can be used for many walks, one after the other. What a walk has parsed is remembered in the walks after
it, also when it ended with an error. Nothing of what the walks do shows that texts are remembered: that the memory is
faithful holds before the first walk and is kept by each (`walk_fresh`), so a sequence of walks ends as it would
with every text parsed afresh, walk by walk (`callAll_fresh`). Conditions and assignments are remembered apart from
each other, since one text can be both, and stands for different things then.
-/

namespace FlowPath.Path

variable {μ : Type}

/-- A walk that is asked for: through a tree that stands at some address, in some scope. A tree that is walked again
has the address that it had before. -/
structure Call where
  scope : Nat
  address : Address
  tree : Statement

variable (texts : Texts μ) (options : WalkOptions)

/-- Walks the tree of a call. For a new tree in the root scope this is `walkTree`. -/
def Call.run (call : Call) (session : Session μ) : Outcome μ Statement :=
  walk texts options call.scope call.address call.tree { session with trees := session.trees + 1 }

/-- The outcomes of calls, and the session after them. Each call goes on in the session that the one before has
left, even if that one failed. -/
def callAll : List Call → Session μ → List (Outcome μ Statement) × Session μ
  | [], session => ([], session)
  | call :: rest, session =>
    let outcome := call.run texts options session
    let (others, last) := callAll rest outcome.session
    (outcome :: others, last)

theorem run_fresh (call : Call) (session : Session ParsedTexts) (h : Faithful session.memory) :
    Faithful (call.run Texts.remembered options session).session.memory ∧
      call.run Texts.fresh options (session.withMemory ()) =
        (call.run Texts.remembered options session).withMemory () :=
  walk_fresh options call.scope call.address call.tree { session with trees := session.trees + 1 } h

theorem callAll_fresh (calls : List Call) (session : Session ParsedTexts) (h : Faithful session.memory) :
    Faithful (callAll Texts.remembered options calls session).2.memory ∧
      callAll Texts.fresh options calls (session.withMemory ()) =
        ((callAll Texts.remembered options calls session).1.map (·.withMemory ()),
          (callAll Texts.remembered options calls session).2.withMemory ()) := by
  induction calls generalizing session with
  | nil => exact ⟨h, rfl⟩
  | cons call rest ih =>
    obtain ⟨hfaithful, hrun⟩ := run_fresh options call session h
    obtain ⟨hlast, hrest⟩ := ih _ hfaithful
    refine ⟨hlast, ?_⟩
    rw [callAll, hrun]
    simp only [Outcome.withMemory, hrest]
    rfl

/-- It makes no difference to any sequence of calls whether parsed texts are remembered or every text is parsed
afresh wherever a condition is tested or an assignment is run. Call by call the marked tree and the error are the
same, and so is the session but for the memory: the variables of all scopes, the inputs that are left, what is
counted, and the loops that were cut off. A last walk with a summary ends in the same way too. -/
theorem remembering_is_transparent (inputs : List Value) (calls : List Call) :
    let remembered := callAll Texts.remembered options calls (Session.start options inputs {})
    let fresh := callAll Texts.fresh options calls (Session.start options inputs ())
    fresh.1 = remembered.1.map (·.withMemory ()) ∧ fresh.2 = remembered.2.withMemory () ∧
      ∀ tree, conclude Texts.fresh options tree fresh.2 = conclude Texts.remembered options tree remembered.2 := by
  intro remembered fresh
  obtain ⟨hlast, hcalls⟩ := callAll_fresh options calls (Session.start options inputs {}) faithful_empty
  have hfresh : fresh = (remembered.1.map (·.withMemory ()), remembered.2.withMemory ()) := hcalls
  refine ⟨by rw [hfresh], by rw [hfresh], fun tree => ?_⟩
  rw [hfresh]
  exact conclude_fresh options tree remembered.2 hlast

/-- The text `x = 1` can be run as an assignment, but not tested as a condition. -/
example :
    (callAll Texts.fresh {} [⟨0, [0], ⟨.assignment, "x = 1", none, false, []⟩⟩,
        ⟨0, [1], ⟨.conditional, "x = 1", none, false, []⟩⟩] (Session.start {} [] ())).1.map (·.error.isSome) =
      [false, true] := by
  decide +kernel

end FlowPath.Path
