import FlowPath.Proofs.Environment.Assignment
import FlowPath.Proofs.Path.Walk

/-!
# What a walk puts back

A walk counts its depth, takes from the budget of its loops and opens scopes. However it ends, all of
that is as before when it is over (`tidy_walk`): the depth and the budget have their old values, the
scopes that were open are open, and they have kept their names in the order in which they were bound.
`Keeps` leaves out the budget, which the rounds of a loop do use up; the loop gives it back at its end.
-/

namespace FlowPath

variable {μ α : Type}

/-- The open scopes with their names and the depth are as before. -/
structure Session.Keeps (before after : Session μ) : Prop where
  environment : before.environment.Extends after.environment
  depth : after.depth = before.depth

/-- The open scopes with their names, the depth and the budget are as before. -/
structure Session.Preserves (before after : Session μ) : Prop extends Session.Keeps before after where
  budget : after.budget = before.budget

namespace Session

variable {session before after : Session μ}

theorem Keeps.refl (session : Session μ) : session.Keeps session := ⟨.refl _, rfl⟩

theorem Keeps.trans {s₁ s₂ s₃ : Session μ} (h : s₁.Keeps s₂) (h' : s₂.Keeps s₃) : s₁.Keeps s₃ :=
  ⟨h.environment.trans h'.environment, h'.depth.trans h.depth⟩

theorem Preserves.refl (session : Session μ) : session.Preserves session := ⟨.refl _, rfl⟩

theorem Preserves.trans {s₁ s₂ s₃ : Session μ} (h : s₁.Preserves s₂) (h' : s₂.Preserves s₃) :
    s₁.Preserves s₃ :=
  ⟨h.toKeeps.trans h'.toKeeps, h'.budget.trans h.budget⟩

theorem Keeps.rooted (h : before.Keeps after) (hroot : 0 < before.environment.size) :
    0 < after.environment.size :=
  h.environment.size ▸ hroot

/-! ## Single steps -/

theorem preserves_test (texts : Texts μ) (condition : String) (scope : Nat) (session : Session μ) :
    session.Preserves (session.test texts condition scope).2 := by
  unfold test
  split <;> exact ⟨⟨.refl _, rfl⟩, rfl⟩

theorem preserves_cut (session : Session μ) (address : Address) (condition : String) (done : Nat) :
    session.Preserves (session.cut address condition done) :=
  ⟨⟨.refl _, rfl⟩, rfl⟩

/-- An assignment that is well-formed writes a variable, writes an element or declares a variable. -/
theorem assignParsed_cases {text : String} {parsed : Parsed} {scope : Nat} {env env' : Environment}
    (h : assignParsed text parsed scope env = .ok env') :
    (∃ name value, env' = env.write scope name value) ∨
      (∃ name index value, env.writeElement scope name index value = .ok env') ∨
      ∃ name value, env' = env.declare scope name value := by
  unfold assignParsed at h
  split at h
  · dsimp only at h
    split at h
    · cases h
      exact .inl ⟨_, _, rfl⟩
    · rename_i name index _
      rcases hwrite : env.writeElement scope name (index.eval (env.view scope)) _ with e | after
      · rw [hwrite] at h
        cases h
      · rw [hwrite] at h
        cases h
        exact .inr (.inl ⟨_, _, _, hwrite⟩)
    · cases h
  · split at h
    · cases h
      exact .inr (.inr ⟨_, _, rfl⟩)
    · cases h
  · cases h

theorem extends_assignParsed {text : String} {parsed : Parsed} {scope : Nat} {env env' : Environment}
    (h : assignParsed text parsed scope env = .ok env') : env.Extends env' := by
  obtain ⟨name, value, rfl⟩ | ⟨name, index, value, hwrite⟩ | ⟨name, value, rfl⟩ := assignParsed_cases h
  · exact Environment.extends_write env scope name value
  · exact Environment.extends_writeElement hwrite
  · exact Environment.extends_declare env scope name value

theorem preserves_assign (texts : Texts μ) (text : String) (scope : Nat) (session : Session μ) :
    session.Preserves (session.assign texts text scope).2 := by
  unfold assign
  split
  · exact ⟨⟨.refl _, rfl⟩, rfl⟩
  · split
    · exact ⟨⟨.refl _, rfl⟩, rfl⟩
    · rename_i hassign
      exact ⟨⟨extends_assignParsed hassign, rfl⟩, rfl⟩

theorem preserves_bindParameters (options : WalkOptions) (function : String) (scope : Nat)
    (parameters : List String) (session : Session μ) :
    session.Preserves (session.bindParameters options function scope parameters).2 := by
  fun_induction bindParameters options function scope parameters session with
  | case1 session => exact .refl session
  | case2 parameter rest session value inputs hinputs ih =>
    refine .trans ?_ ih
    exact ⟨⟨Environment.extends_declare _ _ _ _, rfl⟩, rfl⟩
  | case3 => exact .refl _
  | case4 parameter rest session hinputs hlenient ih =>
    refine .trans ?_ ih
    exact ⟨⟨Environment.extends_declare _ _ _ _, rfl⟩, rfl⟩

/-- Rounds and cuts of loops are counted as before. -/
structure SameCounts (before after : Session μ) : Prop where
  rounds : after.rounds = before.rounds
  truncated : after.truncated = before.truncated

theorem sameCounts_test (texts : Texts μ) (condition : String) (scope : Nat) (session : Session μ) :
    session.SameCounts (session.test texts condition scope).2 := by
  unfold test
  split <;> exact ⟨rfl, rfl⟩

theorem sameCounts_assign (texts : Texts μ) (text : String) (scope : Nat) (session : Session μ) :
    session.SameCounts (session.assign texts text scope).2 := by
  unfold assign
  split
  · exact ⟨rfl, rfl⟩
  · split <;> exact ⟨rfl, rfl⟩

theorem sameCounts_bindParameters (options : WalkOptions) (function : String) (scope : Nat)
    (parameters : List String) (session : Session μ) :
    session.SameCounts (session.bindParameters options function scope parameters).2 := by
  fun_induction bindParameters options function scope parameters session with
  | case1 => exact ⟨rfl, rfl⟩
  | case2 _ _ _ _ _ _ ih => exact ⟨ih.rounds, ih.truncated⟩
  | case3 => exact ⟨rfl, rfl⟩
  | case4 _ _ _ _ _ ih => exact ⟨ih.rounds, ih.truncated⟩

/-- A scope that was opened is closed. -/
theorem Preserves.exit {scope : Nat} (hroot : 0 < before.environment.size)
    (h : (before.enter scope).Preserves after) :
    before.Preserves (after.exit before.environment.nextScope) :=
  ⟨⟨.exit hroot h.environment, h.depth⟩, h.budget⟩

end Session

namespace Path

open Statement (Role)

variable {texts : Texts μ} {options : WalkOptions}

/-- A body that puts back what it uses, in every session with a root. -/
def Tidy (body : Session μ → Outcome μ α) : Prop :=
  ∀ session : Session μ, 0 < session.environment.size → session.Preserves (body session).session

/-! ## Loops -/

section Loop

variable {parts : LoopParts μ} {session : Session μ}

theorem keeps_runBody (hbody : ∀ inside, Tidy (parts.body inside)) (budget : Nat)
    (hroot : 0 < session.environment.size) : session.Keeps (runBody parts budget session).session := by
  let funded : Session μ := { session with budget, rounds := session.rounds + 1 }
  have hinner := hbody session.environment.nextScope (funded.enter parts.scope) (by simp [Session.enter])
  have hexit : funded.Preserves (runBody parts budget session).session := hinner.exit hroot
  exact ⟨hexit.environment, hexit.depth⟩

theorem loopRule_keeps (hbody : ∀ inside, Tidy (parts.body inside))
    (hroot : 0 < session.environment.size) :
    LoopRule texts parts (fun _ now => session.Keeps now) fun outcome => session.Keeps outcome.session := by
  have htested {now after : Session μ} {result : Except WalkError Bool} (hI : session.Keeps now)
      (htest : now.test texts parts.condition parts.scope = (result, after)) : session.Keeps after := by
    have htest' := Session.preserves_test texts parts.condition parts.scope now
    rw [htest] at htest'
    exact hI.trans htest'.toKeeps
  have hround {now after : Session μ} (hI : session.Keeps now)
      (htest : now.test texts parts.condition parts.scope = (.ok true, after)) (budget : Nat) :
      session.Keeps (runBody parts budget after).session :=
    (htested hI htest).trans (keeps_runBody hbody budget ((htested hI htest).rooted hroot))
  exact
    { failed := htested
      ended := htested
      cut := fun done _ _ _ hI htest => (htested hI htest).trans (Session.preserves_cut _ _ _ done).toKeeps
      broken := fun budget _ _ _ _ hI htest _ => hround hI htest budget
      round := fun budget _ _ _ hI htest _ => hround hI htest budget }

theorem tidy_runLoop (hbody : ∀ inside, Tidy (parts.body inside)) (children : List Statement) :
    Tidy (runLoop texts options parts children) := by
  intro session hroot
  have hrounds : session.Keeps (allRounds texts options parts session.budget 0 children session).session :=
    (loopRule_keeps hbody hroot).allRounds session.budget 0 (.refl session)
  exact ⟨⟨hrounds.environment, hrounds.depth⟩, rfl⟩

end Loop

/-! ## Statements -/

theorem tidy_walkAll {statements : List Statement}
    (h : ∀ s ∈ statements, ∀ scope address, Tidy (walk texts options scope address s)) (scope : Nat)
    (role : Option Role) (address : Address) (index : Nat) :
    Tidy (walkAll texts options scope role address index statements) := by
  induction statements generalizing index with
  | nil =>
    intro session _
    rw [walkAll_nil]
    exact .refl session
  | cons s rest ih =>
    obtain ⟨hfirst, hrest⟩ := List.forall_mem_cons.mp h
    intro session hroot
    cases hruns : runs role s with
    | false =>
      rw [walkAll_skip hruns]
      exact ih hrest (index + 1) session hroot
    | true =>
      have hwalked := hfirst scope (index :: address) session hroot
      cases herror : (walk texts options scope (index :: address) s session).error with
      | some e =>
        rw [walkAll_error hruns herror]
        exact hwalked
      | none =>
        rw [walkAll_run hruns herror]
        exact hwalked.trans (ih hrest (index + 1) _ (hwalked.rooted hroot))

theorem tidy_runInside (s : Statement)
    (h : ∀ child ∈ s.children, ∀ scope address, Tidy (walk texts options scope address child)) (scope : Nat)
    (address : Address) : Tidy (runInside texts options scope address s) := by
  have hchildren := tidy_walkAll h
  intro session hroot
  unfold runInside
  split
  · have hbound := Session.preserves_bindParameters options
      ((Statement.nameInHead? s.text).getD Session.anonymous) scope (Statement.parameterNames s.text) session
    dsimp only
    split <;> rename_i heq <;> rw [heq] at hbound
    · exact hbound
    · exact hbound.trans (hchildren scope none address 0 _ (hbound.rooted hroot))
  · have hassigned := Session.preserves_assign texts s.text scope session
    split <;> rename_i heq <;> rw [heq] at hassigned <;> exact hassigned
  · have htested := Session.preserves_test texts s.text scope session
    split <;> rename_i heq <;> rw [heq] at htested
    · exact htested
    · rename_i holds tested
      have hbranch := hchildren tested.environment.nextScope
        (some (if holds then Role.consequent else Role.alternate)) address 0 (tested.enter scope)
        (by simp [Session.enter])
      exact htested.trans (hbranch.exit (htested.rooted hroot))
  · exact tidy_runLoop (fun inside => hchildren inside (some .body) address 0) s.children session hroot
  · exact hchildren scope none address 0 session hroot
  · exact hchildren scope none address 0 session hroot

/-- However a walk ends, the depth, the budget and the open scopes are as before. -/
theorem tidy_walk (texts : Texts μ) (options : WalkOptions) (s : Statement) (scope : Nat)
    (address : Address) : Tidy (walk texts options scope address s) := by
  induction s generalizing scope address with
  | node kind text role onPath children ih =>
    intro session hroot
    by_cases hdepth : options.maxDepth ≤ session.depth
    · rw [walk_tooDeep hdepth]
      exact .refl session
    · rw [walk_eq hdepth]
      have hinner := tidy_runInside ⟨kind, text, role, onPath, children⟩ ih scope address
        { session with depth := session.depth + 1 } hroot
      exact ⟨⟨hinner.environment, congrArg (· - 1) hinner.depth⟩, hinner.budget⟩

theorem tidy_sequence (texts : Texts μ) (options : WalkOptions) (scope : Nat) (role : Option Role)
    (address : Address) (index : Nat) (statements : List Statement) :
    Tidy (walkAll texts options scope role address index statements) :=
  tidy_walkAll (fun s _ => tidy_walk texts options s) scope role address index

end Path

end FlowPath
