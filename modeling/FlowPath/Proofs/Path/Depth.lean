import FlowPath.Proofs.Path.Upkeep

/-!
# How deep a walk goes

A walk refuses statements that are nested deeper than its limit. A tree that is no higher than the levels
that are left is never refused for that (`fits_walk`): every statement inside is one level further in, and
the depth is back at its old value before the next statement. No other error is about the depth.
-/

namespace FlowPath

variable {μ α : Type}

namespace Statement

mutual

/-- The number of statements on the longest way down from the root, the root included. -/
def height : Statement → Nat
  | ⟨_, _, _, _, children⟩ => 1 + heightAll children

def heightAll : List Statement → Nat
  | [] => 0
  | s :: rest => max (height s) (heightAll rest)

end

end Statement

namespace WalkError

/-- The error is about the depth of statements. -/
def isTooDeep : WalkError → Bool
  | .tooDeep _ => true
  | _ => false

/-- The error is about the text of a condition or an assignment, or about what the text asks for. -/
def isOfText : WalkError → Bool
  | .element _ | .malformed _ | .notAssignable _ => true
  | .noInput _ _ | .tooDeep _ => false

theorem isTooDeep_of_isOfText {e : WalkError} (h : e.isOfText = true) : e.isTooDeep = false := by
  cases e with
  | element | malformed | notAssignable => rfl
  | noInput | tooDeep => cases h

end WalkError

namespace Path

open Statement (Role joinAll heightAll)

variable {texts : Texts μ} {options : WalkOptions} {session after : Session μ} {e : WalkError}

theorem isOfText_test {condition : String} {scope : Nat}
    (h : session.test texts condition scope = (.error e, after)) : e.isOfText = true := by
  unfold Session.test at h
  split at h <;> cases h
  rfl

theorem isOfText_assignParsed {text : String} {parsed : Parsed} {scope : Nat} {env : Environment}
    (h : Session.assignParsed text parsed scope env = .error e) : e.isOfText = true := by
  unfold Session.assignParsed at h
  split at h
  · dsimp only at h
    split at h
    · cases h
    · rename_i name index _
      rcases hwrite : env.writeElement scope name (index.eval (env.view scope)) _ with error | written
      · rw [hwrite] at h
        cases h
        rfl
      · rw [hwrite] at h
        cases h
    · cases h
      rfl
  · split at h <;> cases h
    rfl
  · cases h
    rfl

theorem isOfText_assign {text : String} {scope : Nat}
    (h : session.assign texts text scope = (.error e, after)) : e.isOfText = true := by
  unfold Session.assign at h
  split at h
  · cases h
    rfl
  · split at h <;> cases h
    rename_i hassign
    exact isOfText_assignParsed hassign

theorem isTooDeep_bindParameters {function : String} {scope : Nat} {parameters : List String}
    (h : session.bindParameters options function scope parameters = (.error e, after)) :
    e.isTooDeep = false := by
  fun_induction Session.bindParameters options function scope parameters session with
  | case1 => cases h
  | case2 _ _ _ _ _ _ ih => exact ih h
  | case3 =>
    cases h
    rfl
  | case4 _ _ _ _ _ ih => exact ih h

/-- Where so many levels are left, the body does not go too deep. -/
def Fits (options : WalkOptions) (levels : Nat) (body : Session μ → Outcome μ α) : Prop :=
  ∀ session : Session μ, 0 < session.environment.size → session.depth + levels ≤ options.maxDepth →
    ∀ e, (body session).error = some e → e.isTooDeep = false

theorem fits_runLoop {parts : LoopParts μ} {levels : Nat} (htidy : ∀ inside, Tidy (parts.body inside))
    (hbody : ∀ inside, Fits options levels (parts.body inside)) (children : List Statement) :
    Fits options levels (runLoop texts options parts children) := by
  intro session hroot hlevels
  have hkeeps : LoopRule texts parts (fun _ now => session.Keeps now) _ := loopRule_keeps htidy hroot
  have rule : LoopRule texts parts (fun _ now => session.Keeps now)
      fun outcome => ∀ e, outcome.error = some e → e.isTooDeep = false :=
    { failed := by
        rintro marked now after error hI htest e ⟨⟩
        exact WalkError.isTooDeep_of_isOfText (isOfText_test htest)
      ended := by
        rintro marked now after hI htest e ⟨⟩
      cut := by
        rintro done marked now after hI htest e ⟨⟩
      broken := by
        rintro budget marked now after error hI htest hbroken _ ⟨⟩
        have htested := Session.preserves_test texts parts.condition parts.scope now
        rw [htest] at htested
        have hdepth : after.depth = session.depth := htested.depth.trans hI.depth
        let entered := { after with budget, rounds := after.rounds + 1 }.enter parts.scope
        exact hbody after.environment.nextScope entered (by simp [entered, Session.enter])
          (show after.depth + levels ≤ _ from hdepth ▸ hlevels) error hbroken
      round := hkeeps.round }
  exact rule.allRounds session.budget 0 (.refl session)

theorem fits_walkAll {statements : List Statement}
    (h : ∀ s ∈ statements, ∀ scope address, Fits options s.height (walk texts options scope address s))
    (scope : Nat) (role : Option Role) (address : Address) (index : Nat) :
    Fits options (heightAll statements) (walkAll texts options scope role address index statements) := by
  induction statements generalizing index with
  | nil =>
    intro session _ _
    rw [walkAll_nil]
    rintro e ⟨⟩
  | cons s rest ih =>
    obtain ⟨hfirst, hrest⟩ := List.forall_mem_cons.mp h
    intro session hroot hlevels
    rw [heightAll] at hlevels
    cases hruns : runs role s with
    | false =>
      rw [walkAll_skip hruns]
      exact ih hrest (index + 1) session hroot (by omega)
    | true =>
      cases herror : (walk texts options scope (index :: address) s session).error with
      | some e =>
        rw [walkAll_error hruns herror]
        rintro _ ⟨⟩
        exact hfirst scope (index :: address) session hroot (by omega) e herror
      | none =>
        have hkept := tidy_walk texts options s scope (index :: address) session hroot
        rw [walkAll_run hruns herror]
        exact ih hrest (index + 1) _ (hkept.rooted hroot) (by rw [hkept.depth]; omega)

theorem fits_runInside (s : Statement)
    (h : ∀ child ∈ s.children, ∀ scope address,
      Fits options child.height (walk texts options scope address child)) (scope : Nat) (address : Address) :
    Fits options (heightAll s.children) (runInside texts options scope address s) := by
  have hchildren := fits_walkAll h
  intro session hroot hlevels
  unfold runInside
  split
  · have hkept := Session.preserves_bindParameters options
      ((Statement.nameInHead? s.text).getD Session.anonymous) scope (Statement.parameterNames s.text) session
    dsimp only
    split <;> rename_i hbound <;> rw [hbound] at hkept
    · rintro e ⟨⟩
      exact isTooDeep_bindParameters hbound
    · exact hchildren scope none address 0 _ (hkept.rooted hroot) (hkept.depth ▸ hlevels)
  · split <;> rename_i hassigned
    · rintro e ⟨⟩
      exact WalkError.isTooDeep_of_isOfText (isOfText_assign hassigned)
    · rintro e ⟨⟩
  · have hkept := Session.preserves_test texts s.text scope session
    split <;> rename_i htested <;> rw [htested] at hkept
    · rintro e ⟨⟩
      exact WalkError.isTooDeep_of_isOfText (isOfText_test htested)
    · rename_i holds tested
      exact hchildren tested.environment.nextScope
        (some (if holds then Role.consequent else Role.alternate)) address 0 (tested.enter scope)
        (by simp [Session.enter]) (show tested.depth + _ ≤ _ from hkept.depth ▸ hlevels)
  · exact fits_runLoop (fun inside => tidy_sequence texts options inside (some .body) address 0 s.children)
      (fun inside => hchildren inside (some .body) address 0) s.children session hroot hlevels
  · exact hchildren scope none address 0 session hroot hlevels
  · exact hchildren scope none address 0 session hroot hlevels

/-- A tree that is no higher than the levels that are left is not too deep anywhere. -/
theorem fits_walk (texts : Texts μ) (options : WalkOptions) (s : Statement) (scope : Nat)
    (address : Address) : Fits options s.height (walk texts options scope address s) := by
  induction s generalizing scope address with
  | node kind text role onPath children ih =>
    intro session hroot hlevels
    rw [Statement.height] at hlevels
    rw [walk_eq (by omega)]
    exact fits_runInside ⟨kind, text, role, onPath, children⟩ ih scope address
      { session with depth := session.depth + 1 } hroot
      (show session.depth + 1 + heightAll children ≤ _ by omega)

end Path

end FlowPath
