import FlowPath.Proofs.Environment.Ancestors
import FlowPath.Proofs.Environment.Copies

/-!
# Undefined variables stay undefined outside

Whatever is done in the innermost scope of a stack, the scopes around it see no new variable: where one of
them saw nothing, or `undefined`, it sees the same afterwards (`KeepsUndefined`). A declaration stays in its
scope, and an assignment goes outward only as long as there is a defined value to be seen. So what is done
between opening a scope and closing it defines nothing outside of it (`KeepsUndefined.exit`).
-/

namespace FlowPath.Environment

/-- Where the first `count` scopes saw no defined value, they see what they saw. -/
def KeepsUndefined (count : Nat) (before after : Environment) : Prop :=
  ∀ scope < count, ∀ name, before.sees name scope = false →
    after.read? scope name = before.read? scope name

variable {env env' : Environment} {count : Nat}

theorem KeepsUndefined.refl (env : Environment) : KeepsUndefined count env env :=
  fun _ _ _ _ => rfl

theorem KeepsUndefined.trans {env₁ env₂ env₃ : Environment} (h : KeepsUndefined count env₁ env₂)
    (h' : KeepsUndefined count env₂ env₃) : KeepsUndefined count env₁ env₃ := by
  intro scope hs name hsees
  have hread := h scope hs name hsees
  have hsees' : env₂.sees name scope = false := by rw [sees_eq, hread, ← sees_eq, hsees]
  rw [h' scope hs name hsees', hread]

theorem KeepsUndefined.mono (h : KeepsUndefined count env env') {fewer : Nat} (hle : fewer ≤ count) :
    KeepsUndefined fewer env env' :=
  fun scope hs => h scope (Nat.lt_of_lt_of_le hs hle)

/-! ## What is done in the innermost scope -/

theorem Stacked.ancestor? (h : env.Stacked) {scope steps : Nat} (hs : scope + steps < env.size) :
    env.ancestor? steps (scope + steps) = some scope := by
  induction steps with
  | zero => rfl
  | succ steps ih =>
    rw [← Nat.add_assoc] at hs ⊢
    rw [Environment.ancestor?, h.parent (scope + steps) hs, Option.bind_some]
    exact ih (by omega)

theorem Stacked.keepsUndefined_declare (h : env.Stacked) (name : String) (value : Value) :
    KeepsUndefined env.innermost env (env.declare env.innermost name value) := by
  intro scope hs other _
  have hext := extends_declare env env.innermost name value
  have hopen := h.innermost_lt
  refine read?_congr h.nested (hext.nested h.nested) (by omega) (by rw [hext.size]; omega)
    (fun s _ => hext.parent s) fun s hle => ?_
  exact declare_own?_of_ne env env.innermost name value (by omega) other

/-- An update that goes outward through defined values only. -/
theorem Stacked.keepsUndefined_updateAlong (h : env.Stacked) {goesOn : Value → Bool}
    (hdefined : ∀ seen : Option Value, seen.any goesOn = true → seen.any Value.isDefined = true)
    (change : Option Value → Value) (name : String) :
    KeepsUndefined env.innermost env (updateAlong goesOn change name (env.chain env.innermost) env) := by
  intro scope hs other hsees
  have hopen := h.innermost_lt
  by_cases hname : other = name
  · subst hname
    obtain ⟨steps, hsteps⟩ : ∃ steps, env.innermost = scope + steps := ⟨env.innermost - scope, by omega⟩
    have hancestor : env.ancestor? steps env.innermost = some scope := by
      rw [hsteps]
      exact h.ancestor? (by omega)
    refine (read?_updateAlong h.nested hopen goesOn change other hancestor).2 fun hreaches => ?_
    have hgoes := hreaches steps scope (by omega) (Nat.le_refl _) hancestor
    rw [sees_eq, hdefined _ hgoes] at hsees
    cases hsees
  · have hext := extends_updateAlong goesOn change name (env.chain env.innermost) env
    refine read?_congr h.nested (hext.nested h.nested) (by omega) (by rw [hext.size]; omega)
      (fun s _ => hext.parent s) fun s _ => ?_
    exact updateAlong_own?_of_ne goesOn change name _ env hname s

theorem Stacked.keepsUndefined_write (h : env.Stacked) (name : String) (value : Value) :
    KeepsUndefined env.innermost env (env.write env.innermost name value) := by
  rw [write_eq]
  exact h.keepsUndefined_updateAlong (fun _ hgo => hgo) _ name

theorem Stacked.keepsUndefined_writeElement (h : env.Stacked) {name : String} {index value : Value}
    (hwrite : env.writeElement env.innermost name index value = .ok env') :
    KeepsUndefined env.innermost env env' := by
  rw [Environment.writeElement_eq h.nested h.innermost_lt] at hwrite
  split at hwrite
  · cases hwrite
  · split at hwrite
    · cases hwrite
      exact h.keepsUndefined_updateAlong (fun _ => any_isDefined_of_isArray) _ name
    · cases hwrite

/-! ## What is done in a new scope -/

theorem read?_of_same_scopes (h : env.Nested) (h' : env'.Nested) {scope : Nat} (hs : scope < env.size)
    (hs' : scope < env'.size) (hsame : ∀ s ≤ scope, env'.scopes[s]? = env.scopes[s]?) (name : String) :
    env'.read? scope name = env.read? scope name :=
  read?_congr h h' hs hs' (fun s hle => by rw [parent?, parent?, hsame s hle])
    fun s hle => by rw [own?, own?, frame?, frame?, hsame s hle]

/-- A scope that is opened and closed again defines nothing in the scopes that were open before. -/
theorem KeepsUndefined.exit (hstacked : env.Stacked) (hext : (env.enter env.innermost).Extends env')
    (h : KeepsUndefined env.size (env.enter env.innermost) env') :
    KeepsUndefined env.size env (env'.exit env.nextScope) := by
  have hentered := hstacked.enter
  have hinside := hentered.of_extends hext
  have hsize : env'.size = env.size + 1 := by rw [hext.size, enter_size]
  intro scope hs name hsees
  have hopened : (env.enter env.innermost).read? scope name = env.read? scope name := by
    refine read?_of_same_scopes hstacked.nested hentered.nested hs (by rw [enter_size]; omega)
      (fun s hle => ?_) name
    exact enter_getElem? env env.innermost (by omega)
  have hclosed : (env'.exit env.nextScope).read? scope name = env'.read? scope name := by
    have hmax : max env.nextScope 1 = env.size := Nat.max_eq_left hstacked.size_pos
    refine read?_of_same_scopes hinside.nested (hinside.nested.exit _) (by omega)
      (by rw [exit_size, hmax]; omega) (fun s hle => ?_) name
    rw [exit_getElem?, hmax, if_pos (by omega)]
  have hstill : (env.enter env.innermost).sees name scope = false := by
    rw [sees_eq, hopened, ← sees_eq, hsees]
  rw [hclosed, h scope hs name hstill, hopened]

end FlowPath.Environment
