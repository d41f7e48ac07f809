import FlowPath.Proofs.Environment.Assignment

/-!
# Stacks of scopes

Environments are used as stacks: a new scope opens inside the innermost one, the innermost scope is the
one to be closed, and assignments are made there. `Operation` lists what can be done. `Stacked` says
that the scopes stand one in the other, and is kept by every operation.

For a single name, what an operation does is told by `Operation.effect`, a function on what the scopes
see under that name, from the innermost one outward. `perform_sights` proves it of all operations at
once; whatever else is to be known of stacks follows from there.
-/

namespace FlowPath

/-- What can be done with a stack of scopes. -/
inductive Operation where
  | enter
  /-- Closes the innermost scope, or nothing if that is the root. -/
  | exit
  | declare (name : String) (value : Value)
  | write (name : String) (value : Value)
  | writeElement (name : String) (index value : Value)

/-- Does one operation after the other. The result says which of them failed, and how. -/
def performAll {σ : Type} (perform : σ → Operation → σ × Option ElementError) (state : σ) :
    List Operation → σ × List (Option ElementError)
  | [] => (state, [])
  | operation :: rest =>
    let (next, error) := perform state operation
    let (final, errors) := performAll perform next rest
    (final, error :: errors)

namespace Environment

/-- The scope that was opened last. -/
def innermost (env : Environment) : Nat := env.size - 1

/-- Does an operation in the innermost scope. One that fails changes nothing. -/
def perform (env : Environment) : Operation → Environment × Option ElementError
  | .enter => (env.enter env.innermost, none)
  | .exit => (env.exit env.innermost, none)
  | .declare name value => (env.declare env.innermost name value, none)
  | .write name value => (env.write env.innermost name value, none)
  | .writeElement name index value =>
    match env.writeElement env.innermost name index value with
    | .ok after => (after, none)
    | .error e => (env, some e)

/-- Every scope but the root stands in the one before it. -/
structure Stacked (env : Environment) : Prop where
  size_pos : 0 < env.size
  root : env.parent? 0 = none
  parent (scope : Nat) (h : scope + 1 < env.size) : env.parent? (scope + 1) = some scope

theorem stacked_start : Stacked {} :=
  ⟨Nat.one_pos, rfl, fun _ h => absurd h (by simp [size])⟩

section Stacked

variable {env env' : Environment}

theorem Stacked.nested (h : env.Stacked) : env.Nested := by
  intro scope parent hparent
  cases scope with
  | zero =>
    rw [h.root] at hparent
    cases hparent
  | succ scope =>
    rw [h.parent scope (lt_size_of_parent? hparent), Option.some.injEq] at hparent
    omega

theorem Stacked.innermost_lt (h : env.Stacked) : env.innermost < env.size :=
  Nat.sub_lt h.size_pos Nat.one_pos

theorem Stacked.of_extends (h : env.Stacked) (hext : env.Extends env') : env'.Stacked where
  size_pos := hext.size ▸ h.size_pos
  root := (hext.parent 0).trans h.root
  parent scope hs := (hext.parent (scope + 1)).trans (h.parent scope (hext.size ▸ hs))

theorem Stacked.chain (h : env.Stacked) {scope : Nat} (hs : scope < env.size) :
    env.chain scope = (List.range (scope + 1)).reverse := by
  induction scope with
  | zero =>
    rw [chain_eq h.nested hs, h.root]
    rfl
  | succ scope ih =>
    rw [chain_eq h.nested hs, h.parent scope hs, Option.elim_some, ih (by omega),
      List.range_succ (n := scope + 1), List.reverse_append]
    rfl

theorem Extends.innermost (h : env.Extends env') : env'.innermost = env.innermost := by
  rw [Environment.innermost, Environment.innermost, h.size]

/-- The sights of the innermost scope are those of all open scopes. -/
theorem Stacked.sights (h : env.Stacked) (name : String) :
    env.sights name env.innermost = (List.range env.size).reverse.map (env.read? · name) := by
  rw [Environment.sights, h.chain h.innermost_lt, innermost, Nat.sub_add_cancel h.size_pos]

/-- Environments with the same scopes up to a place see the same up to there. -/
theorem sights_of_same_scopes (h : env.Nested) (h' : env'.Nested) {scope : Nat} (hs : scope < env.size)
    (hsame : ∀ s ≤ scope, env'.scopes[s]? = env.scopes[s]?) (name : String) :
    env'.sights name scope = env.sights name scope := by
  have hs' : scope < env'.size := by
    have hfound := hsame scope (Nat.le_refl _)
    rw [Array.getElem?_eq_getElem hs] at hfound
    exact (Array.getElem?_eq_some_iff.mp hfound).1
  exact sights_congr h h' hs hs' (fun s hle => by rw [parent?, parent?, hsame s hle])
    fun s hle => by rw [own?, own?, frame?, frame?, hsame s hle]

end Stacked

end Environment

/-! ## What operations do to a name -/

open Environment (slot? elementSet spread)

/-- What an operation does to what the scopes see under a name, from the innermost scope outward. -/
def Operation.effect (name : String) : Operation → List (Option Value) → List (Option Value)
  | _, [] => []
  | .enter, seen :: outer => seen :: seen :: outer
  | .exit, [seen] => [seen]
  | .exit, _ :: next :: outer => next :: outer
  | .declare bound value, seen :: outer => if bound = name then some value :: outer else seen :: outer
  | .write bound value, seen :: outer =>
    if bound = name then some value :: spread Value.isDefined (fun _ => value) outer else seen :: outer
  | .writeElement bound index value, seen :: outer =>
    match slot? index with
    | none => seen :: outer
    | some position =>
      if bound = name ∧ seen.any Value.isArray then
        some (elementSet position value seen) :: spread Value.isArray (elementSet position value) outer
      else seen :: outer

/-- How an operation fails in a scope that sees the given values. -/
def Operation.error? (seen : Bindings) : Operation → Option ElementError
  | .writeElement name index _ =>
    match slot? index with
    | none => some (.badIndex name index.display)
    | some _ =>
      if (seen name).any Value.isArray then none
      else some (.noArray name ((seen name).getD .undefined).typeName)
  | _ => none

namespace Environment

variable {env : Environment}

theorem Stacked.enter (h : env.Stacked) : (env.enter env.innermost).Stacked where
  size_pos := by simp
  root := by
    rw [parent?, enter_getElem? env env.innermost h.size_pos]
    exact h.root
  parent scope hs := by
    rw [enter_size] at hs
    by_cases hlast : scope + 1 < env.size
    · rw [parent?, enter_getElem? env env.innermost hlast]
      exact h.parent scope hlast
    · obtain rfl : scope = env.innermost := by
        unfold innermost
        omega
      have hnext : env.innermost + 1 = env.nextScope := Nat.sub_add_cancel h.size_pos
      rw [hnext, enter_parent?_nextScope]

section Sights

variable {name : String} {seen : Option Value} {outer : List (Option Value)}

theorem Stacked.sights_cons (h : env.Stacked) (hseen : env.sights name env.innermost = seen :: outer) :
    env.read? env.innermost name = seen ∧
      (env.parent? env.innermost).elim [] (env.sights name) = outer := by
  rw [sights_eq h.nested h.innermost_lt] at hseen
  exact List.cons.inj hseen

/-- A new scope sees what the scope around it sees. -/
theorem Stacked.sights_enter (h : env.Stacked) (hseen : env.sights name env.innermost = seen :: outer) :
    (env.enter env.innermost).sights name (env.enter env.innermost).innermost =
      seen :: seen :: outer := by
  generalize hentered : env.enter env.innermost = entered
  have h' : entered.Stacked := hentered ▸ h.enter
  have hsize : entered.size = env.size + 1 := hentered ▸ enter_size env env.innermost
  have hlast : entered.innermost = env.nextScope := by rw [innermost, hsize]; rfl
  have hopen : env.nextScope < entered.size := hlast ▸ h'.innermost_lt
  have hsame : entered.sights name env.innermost = seen :: outer := by
    rw [← hseen]
    refine sights_of_same_scopes h.nested h'.nested h.innermost_lt (fun s hle => ?_) name
    exact hentered ▸ enter_getElem? env _ (Nat.lt_of_le_of_lt hle h.innermost_lt)
  have hread : entered.read? env.innermost name = seen := by
    have hinner := h.innermost_lt
    rw [sights_eq h'.nested (by omega)] at hsame
    exact (List.cons.inj hsame).1
  have hparent : entered.parent? env.nextScope = some env.innermost :=
    hentered ▸ enter_parent?_nextScope env env.innermost
  have hown : entered.own? name env.nextScope = none :=
    hentered ▸ enter_own?_nextScope env env.innermost name
  rw [hlast, sights_eq h'.nested hopen, read?_eq h'.nested hopen, hown, hparent, Option.elim_some, hsame]
  exact congrArg (· :: seen :: outer) hread

theorem Stacked.exit (h : env.Stacked) : (env.exit env.innermost).Stacked where
  size_pos := by
    rw [exit_size]
    have := h.size_pos
    omega
  root := by
    rw [parent?, exit_getElem?, if_pos (by omega)]
    exact h.root
  parent scope hs := by
    rw [exit_size] at hs
    rw [parent?, exit_getElem?, if_pos (by omega)]
    exact h.parent scope (by omega)

/-- Closing the innermost scope leaves what the others see, and the root is not closed. -/
theorem Stacked.sights_exit (h : env.Stacked) (name : String) :
    (env.exit env.innermost).sights name (env.exit env.innermost).innermost =
      Operation.exit.effect name (env.sights name env.innermost) := by
  have hlast : (env.exit env.innermost).innermost = env.innermost - 1 := by
    rw [innermost, exit_size]
    unfold innermost
    omega
  have hsame : (env.exit env.innermost).sights name (env.innermost - 1) =
      env.sights name (env.innermost - 1) := by
    have hinner := h.innermost_lt
    refine sights_of_same_scopes h.nested h.exit.nested (by omega) (fun s hle => ?_) name
    rw [exit_getElem?, if_pos (by omega)]
  rw [hlast, hsame]
  rcases hinner : env.innermost with _ | scope
  · rw [sights_eq h.nested h.size_pos, h.root]
    rfl
  · have hopen : scope + 1 < env.size := hinner ▸ h.innermost_lt
    rw [sights_eq h.nested hopen, h.parent scope hopen, Option.elim_some, Nat.add_sub_cancel,
      sights_eq h.nested (show scope < env.size by omega)]
    rfl

/-- What a scope sees under other names does not change. -/
theorem Stacked.sights_of_own? {after : Environment} (h : env.Stacked) (hext : env.Extends after)
    (hown : ∀ s, after.own? name s = env.own? name s) :
    after.sights name after.innermost = env.sights name env.innermost := by
  rw [hext.innermost]
  exact sights_congr h.nested (h.of_extends hext).nested h.innermost_lt (hext.size ▸ h.innermost_lt)
    (fun s _ => hext.parent s) fun s _ => hown s

/-- An update that starts in the innermost scope. -/
theorem Stacked.sights_updateAlong (h : env.Stacked) (goesOn : Value → Bool)
    (change : Option Value → Value) (bound : String)
    (hseen : env.sights name env.innermost = seen :: outer) :
    let after := updateAlong goesOn change bound (env.chain env.innermost) env
    after.sights name after.innermost =
      if bound = name then some (change seen) :: spread goesOn change outer else seen :: outer := by
  intro after
  have hext : env.Extends after := extends_updateAlong goesOn change bound _ env
  split
  · rename_i hname
    obtain ⟨hread, houter⟩ := h.sights_cons hseen
    have hupdate := Environment.sights_updateAlong goesOn change bound h.nested h.innermost_lt
    rw [hext.innermost, ← hname, hupdate, hname, hread, houter]
  · rename_i hname
    rw [h.sights_of_own? hext fun s => updateAlong_own?_of_ne goesOn change bound _ env (Ne.symm hname) s]
    exact hseen

end Sights

theorem Stacked.writeElement_eq (h : env.Stacked) (name : String) (index value : Value) :
    env.perform (.writeElement name index value) =
      match slot? index with
      | none => (env, some (.badIndex name index.display))
      | some position =>
        if (env.read? env.innermost name).any Value.isArray then
          (updateAlong Value.isArray (elementSet position value) name (env.chain env.innermost) env, none)
        else (env, some (.noArray name ((env.read? env.innermost name).getD .undefined).typeName)) := by
  rw [perform, Environment.writeElement_eq h.nested h.innermost_lt]
  cases slot? index with
  | none => rfl
  | some position =>
    cases (env.read? env.innermost name).any Value.isArray <;> rfl

/-- Stacks stay stacks. -/
theorem Stacked.perform (h : env.Stacked) (operation : Operation) :
    (env.perform operation).1.Stacked := by
  cases operation with
  | enter => exact h.enter
  | exit => exact h.exit
  | declare name value => exact h.of_extends (extends_declare env _ name value)
  | write name value => exact h.of_extends (extends_write env _ name value)
  | writeElement name index value =>
    rw [h.writeElement_eq]
    split
    · exact h
    · split
      · exact h.of_extends (extends_updateAlong _ _ _ _ env)
      · exact h

/-- Every operation acts on a stack of scopes as its effect says, for all names. -/
theorem Stacked.perform_sights (h : env.Stacked) (operation : Operation) (name : String) :
    (env.perform operation).1.sights name (env.perform operation).1.innermost =
      operation.effect name (env.sights name env.innermost) := by
  obtain ⟨seen, outer, hseen⟩ : ∃ seen outer, env.sights name env.innermost = seen :: outer :=
    ⟨_, _, sights_eq h.nested h.innermost_lt name⟩
  obtain ⟨hread, houter⟩ := h.sights_cons hseen
  cases operation with
  | enter =>
    rw [hseen]
    exact h.sights_enter hseen
  | exit => exact h.sights_exit name
  | declare bound value =>
    have hext := extends_declare env env.innermost bound value
    rw [hseen, Operation.effect, Environment.perform]
    split
    · rename_i hname
      subst hname
      rw [hext.innermost, declare_sights h.nested h.innermost_lt, houter]
    · rename_i hname
      rw [h.sights_of_own? hext fun s => by simp [declare_own?, Ne.symm hname]]
      exact hseen
  | write bound value =>
    rw [Environment.perform, write_eq, hseen, h.sights_updateAlong _ _ bound hseen, Operation.effect]
  | writeElement bound index value =>
    rw [h.writeElement_eq, hseen, Operation.effect]
    cases slot? index with
    | none => exact hseen
    | some position =>
      have hupdate := h.sights_updateAlong Value.isArray (elementSet position value) bound hseen
      by_cases hname : bound = name
      · subst hname
        rw [if_pos rfl] at hupdate
        rw [hread]
        simp only [true_and]
        split
        · exact hupdate
        · exact hseen
      · rw [if_neg hname] at hupdate
        simp only [hname, false_and, if_false]
        split
        · exact hupdate
        · exact hseen

/-- Operations fail by what the innermost scope sees. -/
theorem Stacked.perform_error (h : env.Stacked) (operation : Operation) :
    (env.perform operation).2 = operation.error? (env.read? env.innermost) := by
  cases operation with
  | enter | exit | declare | write => rfl
  | writeElement name index value =>
    rw [h.writeElement_eq, Operation.error?]
    cases slot? index with
    | none => rfl
    | some position => cases (env.read? env.innermost name).any Value.isArray <;> rfl

end Environment

end FlowPath
