import FlowPath.Proofs.Path.Lockstep
import FlowPath.Proofs.Statement.Traced

/-!
# The marks of a walk

A walk that ends without an error, through a tree that had no marks, leaves the marks of a run
(`traced_walk`). Under a loop the rounds add up: the statements of the body are marked if the body ran
at all, and a conditional that took both branches in different rounds has marks in both.
-/

namespace FlowPath.Path

open Statement (Role Blank Traced TracedAll RunBy joinAll unmarkedAll)

variable {μ : Type} {texts : Texts μ} {options : WalkOptions}

/-- The roles of the children that run. -/
def rolesOf (role : Option Role) (own : Option Role) : Bool :=
  match role with
  | none => true
  | some role => own == some role

theorem runs_eq_rolesOf (role : Option Role) (s : Statement) : runs role s = rolesOf role s.role := by
  cases role <;> rfl

@[simp] theorem walk_role (scope : Nat) (address : Address) (s : Statement) (session : Session μ) :
    (walk texts options scope address s session).value.role = s.role := by
  rw [← Statement.unmarked_role, unmarked_walk, Statement.unmarked_role]

/-- Walks through the tree leave the marks of a run if they end well. -/
def LeavesTrace (texts : Texts μ) (options : WalkOptions) (s : Statement) : Prop :=
  ∀ scope address session, (walk texts options scope address s session).error = none →
    (walk texts options scope address s session).value.Traced

theorem tracedAll_walkAll {l : List Statement}
    (hl : ∀ s ∈ l, s.Blank ∧ LeavesTrace texts options s) {scope : Nat} {role : Option Role}
    {address : Address} {index : Nat} {session : Session μ}
    (h : (walkAll texts options scope role address index l session).error = none) :
    TracedAll (rolesOf role) (walkAll texts options scope role address index l session).value := by
  induction l generalizing index session with
  | nil =>
    rw [walkAll_nil]
    exact fun _ h => absurd h List.not_mem_nil
  | cons s rest ih =>
    obtain ⟨⟨hblank, htrace⟩, hrest⟩ := List.forall_mem_cons.mp hl
    cases hruns : runs role s with
    | false =>
      have hrole : rolesOf role s.role = false := runs_eq_rolesOf role s ▸ hruns
      rw [walkAll_skip hruns] at h ⊢
      exact Statement.tracedAll_cons.mpr ⟨⟨fun hr => by simp [hrole] at hr, fun _ => hblank⟩, ih hrest h⟩
    | true =>
      have hrole : rolesOf role s.role = true := runs_eq_rolesOf role s ▸ hruns
      rcases herror : (walk texts options scope (index :: address) s session).error with _ | e
      · rw [walkAll_run hruns herror] at h ⊢
        refine Statement.tracedAll_cons.mpr ⟨⟨fun _ => htrace _ _ _ herror, fun hr => ?_⟩, ih hrest h⟩
        simp [hrole] at hr
      · rw [walkAll_error hruns herror] at h
        cases h

/-- The invariant of the rounds of a loop: the marks so far are those of a run of the body. -/
def RoundsTraced (children marked : List Statement) : Prop :=
  unmarkedAll marked = unmarkedAll children ∧ ∃ ran, RunBy .loop ran ∧ TracedAll ran marked

theorem RoundsTraced.round {children marked added : List Statement} (h : RoundsTraced children marked)
    (hadded : unmarkedAll added = unmarkedAll children)
    (htraced : TracedAll (rolesOf (some .body)) added) :
    RoundsTraced children (joinAll marked added) := by
  obtain ⟨hsame, ran, hran, hmarked⟩ := h
  have hbody : RunBy .loop (rolesOf (some .body)) := fun role hr => by simpa [rolesOf] using hr
  refine ⟨(Statement.unmarkedAll_joinAll marked added).trans hsame, _, hran.or hbody, ?_⟩
  exact hmarked.joinAll (hsame.trans hadded.symm) htraced

theorem tracedAll_runLoop {parts : LoopParts μ} {children : List Statement}
    (hblank : ∀ s ∈ children, s.Blank)
    (hsame : ∀ inside session, unmarkedAll (parts.body inside session).value = unmarkedAll children)
    (hbody : ∀ inside session, (parts.body inside session).error = none →
      TracedAll (rolesOf (some .body)) (parts.body inside session).value)
    {session : Session μ} (h : (runLoop texts options parts children session).error = none) :
    ∃ ran, RunBy .loop ran ∧
      TracedAll ran (runLoop texts options parts children session).value := by
  have rule : LoopRule texts parts (fun marked _ => RoundsTraced children marked)
      fun outcome => outcome.error = none → RoundsTraced children outcome.value :=
    { failed := fun _ _ he => by cases he
      ended := fun hI _ _ => hI
      cut := fun _ _ _ _ hI _ _ => hI
      broken := fun _ _ _ _ _ _ _ _ he => by cases he
      round := fun _ _ _ _ hI _ he => hI.round (hsame _ _) (hbody _ _ he) }
  have hstart : RoundsTraced children children := by
    refine ⟨rfl, fun _ => false, nofun, fun s hs => ⟨nofun, fun _ => hblank s hs⟩⟩
  exact (rule.allRounds session.budget 0 hstart h).2

theorem tracedAll_runInside {s : Statement} (hs : ∀ c ∈ s.children, c.Blank ∧ LeavesTrace texts options c)
    {scope : Nat} {address : Address} {session : Session μ}
    (h : (runInside texts options scope address s session).error = none) :
    ∃ ran, RunBy s.kind ran ∧
      TracedAll ran (runInside texts options scope address s session).value := by
  have hall {scope role session}
      (h : (walkAll texts options scope role address 0 s.children session).error = none) :=
    tracedAll_walkAll hs h
  revert h
  unfold runInside
  cases hkind : s.kind with
  | function =>
    dsimp only
    split
    · exact nofun
    · exact fun h => ⟨rolesOf none, fun _ => rfl, hall h⟩
  | assignment =>
    have hstay : TracedAll (fun _ => false) s.children := fun c hc => ⟨nofun, fun _ => (hs c hc).1⟩
    dsimp only
    split
    · exact nofun
    · exact fun _ => ⟨fun _ => false, fun _ => rfl, hstay⟩
  | conditional =>
    dsimp only
    split
    · exact nofun
    · rename_i holds _ _
      exact fun h => ⟨rolesOf (some _), by cases holds <;> simp [RunBy, rolesOf], hall h⟩
  | loop =>
    refine fun h => tracedAll_runLoop (fun c hc => (hs c hc).1) (fun inside session => ?_)
      (fun inside session h => hall h) h
    exact unmarkedAll_walkAll texts options inside (some .body) address 0 s.children session
  | returning | other => exact fun h => ⟨rolesOf none, fun _ => rfl, hall h⟩

theorem traced_walk {s : Statement} (hs : s.Blank) : LeavesTrace texts options s := by
  induction s with
  | node kind text role onPath children ih =>
    intro scope address session h
    have hchildren : ∀ c ∈ children, c.Blank ∧ LeavesTrace texts options c :=
      fun c hc => ⟨hs.inside c hc, ih c hc (hs.inside c hc)⟩
    by_cases hdepth : options.maxDepth ≤ session.depth
    · rw [walk_tooDeep hdepth] at h
      cases h
    · rw [walk_eq hdepth] at h ⊢
      obtain ⟨ran, hran, htraced⟩ := tracedAll_runInside hchildren h
      exact Statement.traced_iff.mpr ⟨rfl, ran, hran, htraced⟩

/-- The marks of a program whose path was found. -/
theorem traced_annotate {inputs : List Value} {tree marked : Statement} {summary : Summary}
    (hblank : tree.Blank) (h : annotate options inputs tree = (marked, .ok summary)) :
    marked.Traced ∧ tree.unmarked = marked.unmarked := by
  obtain ⟨herror, rfl, -⟩ := annotate_eq_ok_iff.mp h
  exact ⟨traced_walk hblank _ _ _ herror, (unmarked_walk _ _ _ _ tree _).symm⟩

end FlowPath.Path
