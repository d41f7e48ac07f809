import FlowPath.Proofs.Environment.Stack

/-!
# How far an assignment reaches

The scopes around a scope are its ancestors: its parent, the parent of that, and so on outward. An
assignment reaches an ancestor if all ancestors up to there see a value of the kind that lets it go on,
and what an ancestor sees changes exactly if it is reached (`read?_updateAlong`). For the assignment to a
variable that is the contiguous part of the chain that sees a defined value (`write_reaches`). Nothing else
changes anywhere.

All that is asked of the environment is that parents have smaller numbers than their children. That is so
however scopes were opened, as long as each one was opened inside an open one (`Opened.nested`).
-/

namespace FlowPath.Environment

variable {env : Environment} {scope : Nat}

/-! ## Environments that come about -/

/-- The environments that come about when every scope is opened inside an open one and the scope that was
opened last is the one to be closed. -/
inductive Opened : Environment → Prop where
  | start : Opened {}
  | enter {env : Environment} {parent : Nat} (h : Opened env) (hparent : parent < env.size) :
    Opened (env.enter parent)
  | exit {env : Environment} (h : Opened env) : Opened (env.exit env.innermost)
  | declare {env : Environment} (h : Opened env) (scope : Nat) (name : String) (value : Value) :
    Opened (env.declare scope name value)
  | write {env : Environment} (h : Opened env) (scope : Nat) (name : String) (value : Value) :
    Opened (env.write scope name value)
  | writeElement {env after : Environment} {scope : Nat} {name : String} {index value : Value}
    (h : Opened env) (hwrite : env.writeElement scope name index value = .ok after) : Opened after

theorem Nested.enter (h : env.Nested) {parent : Nat} (hparent : parent < env.size) :
    (env.enter parent).Nested := by
  intro s p hp
  have hopen := lt_size_of_parent? hp
  rw [enter_size] at hopen
  by_cases hs : s < env.size
  · rw [parent?, enter_getElem? env parent hs] at hp
    exact h s p hp
  · obtain rfl : s = env.nextScope := by
      show s = env.size
      omega
    rw [enter_parent?_nextScope] at hp
    cases hp
    exact hparent

theorem Nested.exit (h : env.Nested) (scope : Nat) : (env.exit scope).Nested := by
  intro s p hp
  rw [parent?, exit_getElem?] at hp
  split at hp
  · exact h s p hp
  · cases hp

theorem Opened.nested (h : env.Opened) : env.Nested := by
  induction h with
  | start => exact stacked_start.nested
  | enter _ hparent ih => exact ih.enter hparent
  | exit _ ih => exact ih.exit _
  | declare _ scope name value ih => exact (extends_declare _ scope name value).nested ih
  | write _ scope name value ih => exact (extends_write _ scope name value).nested ih
  | writeElement _ hwrite ih => exact (extends_writeElement hwrite).nested ih

/-! ## Ancestors -/

/-- The scope so many steps further out. -/
def ancestor? (env : Environment) : Nat → Nat → Option Nat
  | 0, scope => some scope
  | steps + 1, scope => (env.parent? scope).bind (env.ancestor? steps)

theorem chain_getElem? (h : env.Nested) (hs : scope < env.size) (steps : Nat) :
    (env.chain scope)[steps]? = env.ancestor? steps scope := by
  induction steps generalizing scope with
  | zero =>
    rw [chain_eq h hs]
    rfl
  | succ steps ih =>
    rw [chain_eq h hs, List.getElem?_cons_succ, ancestor?]
    cases hparent : env.parent? scope with
    | none => rfl
    | some parent =>
      have hlt := h scope parent hparent
      exact ih (show parent < env.size by omega)

theorem exists_ancestor?_of_mem_chain (h : env.Nested) (hs : scope < env.size) {s : Nat}
    (hmem : s ∈ env.chain scope) : ∃ steps, env.ancestor? steps scope = some s := by
  obtain ⟨steps, hsteps⟩ := List.mem_iff_getElem?.mp hmem
  exact ⟨steps, (chain_getElem? h hs steps).symm.trans hsteps⟩

theorem sights_getElem? (h : env.Nested) (hs : scope < env.size) (name : String) (steps : Nat) :
    (env.sights name scope)[steps]? = (env.ancestor? steps scope).map (env.read? · name) := by
  rw [sights, List.getElem?_map, chain_getElem? h hs]

/-! ## Reached ancestors -/

/-- From the parent on, all ancestors up to the given one see a value with `goesOn` under the name. -/
def Reaches (env : Environment) (goesOn : Value → Bool) (name : String) (scope steps : Nat) : Prop :=
  ∀ i s, 0 < i → i ≤ steps → env.ancestor? i scope = some s → (env.read? s name).any goesOn = true

theorem reaches_zero {goesOn : Value → Bool} {name : String} : env.Reaches goesOn name scope 0 :=
  fun _ _ hpos hle _ => absurd hle (Nat.not_le.mpr hpos)

/-- A value changes if it and all before it are of the kind. -/
theorem spread_getElem? (goesOn : Value → Bool) (change : Option Value → Value)
    (seen : List (Option Value)) (i : Nat) :
    (spread goesOn change seen)[i]? =
      if (seen.take (i + 1)).all (·.any goesOn) then seen[i]?.map fun value => some (change value)
      else seen[i]? := by
  induction seen generalizing i with
  | nil => simp [spread]
  | cons first outer ih =>
    rw [spread_cons]
    cases hfirst : first.any goesOn with
    | false => simp [hfirst]
    | true =>
      cases i with
      | zero => simp [hfirst]
      | succ i => simp [hfirst, ih i]

theorem all_take_tail_sights_iff (h : env.Nested) (hs : scope < env.size) {goesOn : Value → Bool}
    {name : String} {steps : Nat} :
    ((env.sights name scope).tail.take steps).all (·.any goesOn) = true ↔
      env.Reaches goesOn name scope steps := by
  have hseen (i : Nat) : (env.sights name scope).tail[i]? =
      (env.ancestor? (i + 1) scope).map (env.read? · name) := by
    rw [List.getElem?_tail, sights_getElem? h hs]
  rw [List.all_eq_true]
  constructor
  · intro hall i s hpos hle hancestor
    obtain ⟨i, rfl⟩ : ∃ n, i = n + 1 := ⟨i - 1, by omega⟩
    refine hall _ (List.mem_of_getElem? (i := i) ?_)
    rw [List.getElem?_take_of_lt (by omega), hseen, hancestor]
    rfl
  · intro hreach seen hmem
    obtain ⟨i, hi⟩ := List.mem_iff_getElem?.mp hmem
    rw [List.getElem?_take] at hi
    split at hi
    · rw [hseen] at hi
      obtain ⟨s, hancestor, rfl⟩ := Option.map_eq_some_iff.mp hi
      exact hreach (i + 1) s (by omega) (by omega) hancestor
    · cases hi

theorem Extends.ancestor? {env' : Environment} (h : env.Extends env') (steps scope : Nat) :
    env'.ancestor? steps scope = env.ancestor? steps scope := by
  induction steps generalizing scope with
  | zero => rfl
  | succ steps ih =>
    rw [Environment.ancestor?, Environment.ancestor?, h.parent, funext ih]

/-- What an ancestor sees changes if it is reached, and else it stays. -/
theorem read?_updateAlong (h : env.Nested) (hs : scope < env.size) (goesOn : Value → Bool)
    (change : Option Value → Value) (name : String) {steps ancestor : Nat}
    (hancestor : env.ancestor? steps scope = some ancestor) :
    let after := updateAlong goesOn change name (env.chain scope) env
    (env.Reaches goesOn name scope steps →
      after.read? ancestor name = some (change (env.read? ancestor name))) ∧
    (¬ env.Reaches goesOn name scope steps → after.read? ancestor name = env.read? ancestor name) := by
  intro after
  have hext : env.Extends after := extends_updateAlong goesOn change name (env.chain scope) env
  have hupdate : after.sights name scope = some (change (env.read? scope name)) ::
      spread goesOn change (env.sights name scope).tail := by
    rw [sights_eq h hs]
    exact sights_updateAlong goesOn change name h hs
  have hafter : (after.sights name scope)[steps]? = some (after.read? ancestor name) := by
    rw [sights_getElem? (hext.nested h) (hext.size ▸ hs), hext.ancestor?, hancestor]
    rfl
  rw [hupdate] at hafter
  cases steps with
  | zero =>
    obtain rfl : scope = ancestor := Option.some.inj hancestor
    exact ⟨fun _ => (Option.some.inj hafter).symm, fun hstop => absurd reaches_zero hstop⟩
  | succ steps =>
    have hbefore : (env.sights name scope).tail[steps]? = some (env.read? ancestor name) := by
      rw [List.getElem?_tail, sights_getElem? h hs, hancestor]
      rfl
    rw [List.getElem?_cons_succ, spread_getElem?, hbefore] at hafter
    rw [← all_take_tail_sights_iff h hs]
    refine ⟨fun hreach => ?_, fun hstop => ?_⟩
    · rw [if_pos hreach] at hafter
      exact (Option.some.inj hafter).symm
    · rw [if_neg hstop] at hafter
      exact (Option.some.inj hafter).symm

/-! ## Assignments to variables -/

/-- An assignment changes what the contiguous part of the chain sees that saw a defined value, and nothing
else. In an environment whose parents have smaller numbers than their children, as it comes about by
opening scopes inside open ones: the scope itself and every ancestor up to which all saw a defined value
see the new value, every other ancestor sees what it saw, and no scope that is not an ancestor and no
other name is bound differently. -/
theorem write_reaches :
    (∀ env : Environment, env.Opened → env.Nested) ∧
    ∀ (env : Environment) (scope : Nat) (name : String) (value : Value),
      env.Nested → scope < env.size →
      let after := env.write scope name value
      (∀ steps ancestor, env.ancestor? steps scope = some ancestor →
        (env.Reaches Value.isDefined name scope steps → after.read? ancestor name = some value) ∧
        (¬ env.Reaches Value.isDefined name scope steps →
          after.read? ancestor name = env.read? ancestor name)) ∧
      (∀ s, (∀ steps, env.ancestor? steps scope ≠ some s) →
        ∀ other, after.own? other s = env.own? other s) ∧
      ∀ s other, other ≠ name → after.own? other s = env.own? other s := by
  refine ⟨fun env h => h.nested, fun env scope name value h hs => ?_⟩
  rw [write_eq]
  refine ⟨fun steps ancestor hancestor => ?_, fun s houtside other => ?_, fun s other hother => ?_⟩
  · exact read?_updateAlong h hs Value.isDefined (fun _ => value) name hancestor
  · refine updateAlong_own?_of_not_mem _ _ _ _ env (fun hmem => ?_) other
    obtain ⟨steps, hsteps⟩ := exists_ancestor?_of_mem_chain h hs hmem
    exact houtside steps hsteps
  · exact updateAlong_own?_of_ne _ _ _ _ env hother s

/-- Four scopes one in the other and a fifth in the root beside them. Of the four the outermost and the two
inner ones see a defined value, the one between them does not. -/
def interrupted : Environment :=
  let env : Environment := ({} : Environment).declare 0 "a" (.boolean true)
  let env := (env.enter 0).declare 1 "a" .undefined
  let env := (env.enter 1).declare 2 "a" (.boolean false)
  (env.enter 0).enter 2

theorem write_reaches_interrupted :
    interrupted.Opened ∧ interrupted.size = 5 ∧
      let after := interrupted.write 4 "a" (.string "new")
      (after.read? 4 "a" = some (.string "new") ∧ after.read? 2 "a" = some (.string "new") ∧
        after.read? 1 "a" = some .undefined ∧ after.read? 0 "a" = some (.boolean true)) ∧
      after.own? "a" 3 = none := by
  have hopened : interrupted.Opened :=
    .enter (.enter (.declare (.enter (.declare (.enter (.declare .start 0 _ _) (by decide)) 1 _ _)
      (by decide)) 2 _ _) (by decide)) (by decide)
  obtain ⟨hnested, hwrite⟩ := write_reaches
  obtain ⟨hreads, houtside, -⟩ :=
    hwrite interrupted 4 "a" (.string "new") (hnested _ hopened) (by decide)
  have hstops {steps : Nat} (hsteps : 2 ≤ steps) : ¬ interrupted.Reaches Value.isDefined "a" 4 steps :=
    fun hreach => absurd (hreach 2 1 (by decide) hsteps rfl) (by decide)
  have hbeside : ∀ steps, interrupted.ancestor? steps 4 ≠ some 3 := by
    intro steps hsteps
    have hmem := List.mem_of_getElem? ((chain_getElem? (hnested _ hopened) (by decide) steps).trans hsteps)
    exact absurd hmem (by decide)
  refine ⟨hopened, rfl, ⟨?_, ?_, ?_, ?_⟩, houtside 3 hbeside "a"⟩
  · exact (hreads 0 4 rfl).1 reaches_zero
  · refine (hreads 1 2 rfl).1 fun i s hpos hle hancestor => ?_
    obtain rfl : i = 1 := by omega
    cases hancestor
    decide
  · exact (hreads 2 1 rfl).2 (hstops (by decide))
  · exact (hreads 3 0 rfl).2 (hstops (by decide))

end FlowPath.Environment
