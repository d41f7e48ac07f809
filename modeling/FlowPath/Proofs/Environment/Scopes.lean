import FlowPath.Environment

/-!
# Scopes and what they see

What opening, closing and declaring do to the scopes of an environment, and how a scope sees a variable:
it looks at what it binds itself and then at what its parent sees (`read?_eq`), provided that parents
have smaller numbers than their children (`Nested`). So what a scope sees depends on it and the scopes
with smaller numbers alone (`read?_congr`).

`Extends` relates an environment to one with the same open scopes in which every scope has kept its
names. A scope that is opened and closed again leaves nothing behind (`Extends.exit`).
-/

namespace FlowPath

/-! ## Frames -/

theorem Frame.get?_set (frame : Frame) (name : String) (value : Value) (other : String) :
    (Frame.set name value frame).get? other = if other = name then some value else frame.get? other := by
  induction frame with
  | nil => by_cases h : name = other <;> simp [Frame.set, Frame.get?, h, Ne.symm]
  | cons binding rest ih =>
    obtain ⟨bound, old⟩ := binding
    unfold Frame.get? at ih ⊢
    unfold Frame.set
    by_cases hbound : bound = name
    · subst hbound
      by_cases h : bound = other <;> simp [h, Ne.symm]
    · by_cases h : bound = other
      · subst h
        simp [hbound]
      · simpa [hbound, h] using ih

/-- The names that a frame binds, in the order in which they were first bound. -/
def Frame.names (frame : Frame) : List String := frame.map (·.1)

theorem Frame.names_prefix_set (frame : Frame) (name : String) (value : Value) :
    frame.names <+: (Frame.set name value frame).names := by
  induction frame with
  | nil => exact List.nil_prefix
  | cons binding rest ih =>
    obtain ⟨bound, old⟩ := binding
    unfold Frame.set
    split
    · rename_i h
      rw [h]
      exact List.prefix_rfl
    · exact List.prefix_cons_inj bound |>.mpr ih

namespace Environment

variable {env env' : Environment}

/-! ## Open scopes -/

theorem lt_size_of_parent? {scope parent : Nat} (h : env.parent? scope = some parent) :
    scope < env.size := by
  obtain ⟨found, hfound, -⟩ := Option.bind_eq_some_iff.mp h
  exact (Array.getElem?_eq_some_iff.mp hfound).1

section Declare

variable (env) (scope : Nat) (name : String) (value : Value)

@[simp] theorem declare_size : (env.declare scope name value).size = env.size := Array.size_modify

@[simp] theorem declare_parent? (s : Nat) :
    (env.declare scope name value).parent? s = env.parent? s := by
  simp only [parent?, declare, Array.getElem?_modify]
  split <;> cases env.scopes[s]? <;> rfl

theorem declare_frame? (s : Nat) :
    (env.declare scope name value).frame? s =
      if s = scope then (env.frame? s).map (Frame.set name value) else env.frame? s := by
  simp only [frame?, declare, Array.getElem?_modify, eq_comm (a := s)]
  split <;> cases env.scopes[s]? <;> rfl

theorem declare_own? (other : String) (s : Nat) :
    (env.declare scope name value).own? other s =
      if s = scope ∧ s < env.size ∧ other = name then some value else env.own? other s := by
  rw [own?, declare_frame?, own?]
  by_cases hs : s = scope
  · subst hs
    rcases Nat.lt_or_ge s env.size with hopen | hclosed
    · have hframe : env.frame? s = some env.scopes[s].frame := by
        rw [frame?, Array.getElem?_eq_getElem hopen]
        rfl
      simp [hframe, hopen, Frame.get?_set]
    · have hframe : env.frame? s = none := by
        rw [frame?, Array.getElem?_eq_none (show env.scopes.size ≤ s from hclosed)]
        rfl
      simp [hframe, Nat.not_lt.mpr hclosed]
  · simp [hs]

theorem declare_own?_self (h : scope < env.size) :
    (env.declare scope name value).own? name scope = some value := by
  simp [declare_own?, h]

theorem declare_own?_of_ne {s : Nat} (h : s ≠ scope) (other : String) :
    (env.declare scope name value).own? other s = env.own? other s := by
  simp [declare_own?, h]

end Declare

section Enter

variable (env) (parent : Nat)

@[simp] theorem enter_size : (env.enter parent).size = env.size + 1 := Array.size_push _

theorem enter_parent?_nextScope : (env.enter parent).parent? env.nextScope = some parent := by
  simp [parent?, enter, nextScope]

theorem enter_own?_nextScope (name : String) : (env.enter parent).own? name env.nextScope = none := by
  simp [own?, frame?, enter, nextScope, Frame.get?]

theorem enter_getElem? {s : Nat} (h : s < env.size) :
    (env.enter parent).scopes[s]? = env.scopes[s]? :=
  Array.getElem?_push.trans (if_neg (Nat.ne_of_lt h))

end Enter

section Exit

variable (env) (scope : Nat)

theorem exit_getElem? (s : Nat) :
    (env.exit scope).scopes[s]? = if s < max scope 1 then env.scopes[s]? else none := by
  simp only [exit, Array.take_eq_extract, Array.getElem?_extract, Nat.sub_zero, Nat.zero_add]
  by_cases h : s < env.scopes.size
  · simp only [Nat.lt_min, h, and_true]
  · simp [h]

theorem exit_size : (env.exit scope).size = min (max scope 1) env.size := by
  simp [exit, size]

end Exit

/-! ## Chains -/

/-- Every scope stands in one with a smaller number. -/
def Nested (env : Environment) : Prop :=
  ∀ scope parent, env.parent? scope = some parent → parent < scope

theorem chainWithin_succ (fuel scope : Nat) (h : scope < env.size) :
    env.chainWithin (fuel + 1) scope =
      scope :: (env.parent? scope).elim [] (env.chainWithin fuel) := by
  rw [chainWithin, parent?, Array.getElem?_eq_getElem h]
  simp only [Option.bind_some]
  cases env.scopes[scope].parent <;> rfl

theorem chainWithin_eq_nil (fuel : Nat) {scope : Nat} (h : env.size ≤ scope) :
    env.chainWithin fuel scope = [] := by
  cases fuel with
  | zero => rfl
  | succ fuel => rw [chainWithin, Array.getElem?_eq_none (show env.scopes.size ≤ scope from h)]

/-- Once the fuel is more than the number of the scope, it does not matter. -/
theorem chainWithin_eq (h : env.Nested) {scope : Nat} (hs : scope < env.size) {fuel fuel' : Nat}
    (hfuel : scope < fuel) (hfuel' : scope < fuel') :
    env.chainWithin fuel scope = env.chainWithin fuel' scope := by
  induction scope using Nat.strongRecOn generalizing fuel fuel' with
  | ind scope ih =>
    obtain ⟨fuel, rfl⟩ : ∃ n, fuel = n + 1 := ⟨fuel - 1, by omega⟩
    obtain ⟨fuel', rfl⟩ : ∃ n, fuel' = n + 1 := ⟨fuel' - 1, by omega⟩
    rw [chainWithin_succ fuel scope hs, chainWithin_succ fuel' scope hs]
    cases hparent : env.parent? scope with
    | none => rfl
    | some parent =>
      have hlt := h scope parent hparent
      exact congrArg (scope :: ·) (ih parent hlt (by omega) (by omega) (by omega))

theorem chain_eq (h : env.Nested) {scope : Nat} (hs : scope < env.size) :
    env.chain scope = scope :: (env.parent? scope).elim [] env.chain := by
  obtain ⟨fuel, hfuel⟩ : ∃ n, env.size = n + 1 := ⟨env.size - 1, by omega⟩
  rw [chain, hfuel, chainWithin_succ fuel scope hs]
  cases hparent : env.parent? scope with
  | none => rfl
  | some parent =>
    have hlt := h scope parent hparent
    exact congrArg (scope :: ·) (chainWithin_eq h (by omega) (by omega) (by omega))

theorem le_of_mem_chain (h : env.Nested) {scope : Nat} (hs : scope < env.size) :
    ∀ s ∈ env.chain scope, s ≤ scope := by
  induction scope using Nat.strongRecOn with
  | ind scope ih =>
    rw [chain_eq h hs]
    cases hparent : env.parent? scope with
    | none => simp
    | some parent =>
      have hlt := h scope parent hparent
      intro s hmem
      rcases List.mem_cons.mp hmem with rfl | hmem
      · exact Nat.le_refl _
      · exact Nat.le_trans (ih parent hlt (by omega) s hmem) (Nat.le_of_lt hlt)

/-- A scope sees what it binds itself, and else what its parent sees. -/
theorem read?_eq (h : env.Nested) {scope : Nat} (hs : scope < env.size) (name : String) :
    env.read? scope name =
      (env.own? name scope).or ((env.parent? scope).bind fun parent => env.read? parent name) := by
  rw [read?, chain_eq h hs, List.findSome?_cons]
  cases env.own? name scope with
  | some value => rfl
  | none => cases env.parent? scope <;> rfl

theorem read?_eq_none {scope : Nat} (h : env.size ≤ scope) (name : String) :
    env.read? scope name = none := by
  rw [read?, chain, chainWithin_eq_nil _ h]
  rfl

theorem chain_congr (h : env.Nested) (h' : env'.Nested) {scope : Nat} (hs : scope < env.size)
    (hs' : scope < env'.size) (hparent : ∀ s ≤ scope, env'.parent? s = env.parent? s) :
    env'.chain scope = env.chain scope := by
  induction scope using Nat.strongRecOn with
  | ind scope ih =>
    rw [chain_eq h hs, chain_eq h' hs', hparent scope (Nat.le_refl _)]
    cases hp : env.parent? scope with
    | none => rfl
    | some parent =>
      have hlt := h scope parent hp
      exact congrArg (scope :: ·) (ih parent hlt (by omega) (by omega) fun s hle => hparent s (by omega))

/-- What a scope sees depends on it and on the scopes with smaller numbers. -/
theorem read?_congr (h : env.Nested) (h' : env'.Nested) {scope : Nat} (hs : scope < env.size)
    (hs' : scope < env'.size) {name : String}
    (hparent : ∀ s ≤ scope, env'.parent? s = env.parent? s)
    (hown : ∀ s ≤ scope, env'.own? name s = env.own? name s) :
    env'.read? scope name = env.read? scope name := by
  rw [read?, read?, chain_congr h h' hs hs' hparent]
  have hle := le_of_mem_chain h hs
  generalize env.chain scope = scopes at hle
  induction scopes with
  | nil => rfl
  | cons s rest ih =>
    obtain ⟨hfirst, hrest⟩ := List.forall_mem_cons.mp hle
    rw [List.findSome?_cons, List.findSome?_cons, hown s hfirst, ih hrest]

/-! ## Environments with more names -/

/-- The names that a scope binds itself. -/
def names (env : Environment) (scope : Nat) : List String := ((env.frame? scope).getD []).names

/-- The same scopes are open, and every one of them binds the names that it bound before, in the same
order, and maybe more after them. -/
structure Extends (before after : Environment) : Prop where
  size : after.size = before.size
  parent (scope : Nat) : after.parent? scope = before.parent? scope
  names (scope : Nat) : before.names scope <+: after.names scope

theorem Extends.refl (env : Environment) : env.Extends env :=
  ⟨rfl, fun _ => rfl, fun _ => List.prefix_rfl⟩

theorem Extends.trans {env₁ env₂ env₃ : Environment} (h : env₁.Extends env₂) (h' : env₂.Extends env₃) :
    env₁.Extends env₃ where
  size := h'.size.trans h.size
  parent scope := (h'.parent scope).trans (h.parent scope)
  names scope := (h.names scope).trans (h'.names scope)

theorem Extends.nested (h : env.Extends env') (hn : env.Nested) : env'.Nested :=
  fun scope parent hp => hn scope parent ((h.parent scope).symm.trans hp)

theorem extends_declare (env : Environment) (scope : Nat) (name : String) (value : Value) :
    env.Extends (env.declare scope name value) where
  size := declare_size env scope name value
  parent := declare_parent? env scope name value
  names s := by
    rw [Environment.names, Environment.names, declare_frame?]
    split
    · cases env.frame? s with
      | none => exact List.prefix_rfl
      | some frame => exact Frame.names_prefix_set frame name value
    · exact List.prefix_rfl

/-- Whatever is done between opening a scope and closing it, the scopes around it stay. -/
theorem Extends.exit {parent : Nat} (hroot : 0 < env.size) (h : (env.enter parent).Extends env') :
    env.Extends (env'.exit env.nextScope) := by
  have hmax : max env.nextScope 1 = env.size := Nat.max_eq_left hroot
  have hclosed {s : Nat} (hs : ¬ s < env.size) : env.scopes[s]? = none :=
    Array.getElem?_eq_none (Nat.le_of_not_lt hs)
  refine ⟨?_, fun s => ?_, fun s => ?_⟩
  · rw [exit_size, h.size, enter_size, hmax]
    omega
  · rw [parent?, exit_getElem?, hmax]
    split
    · rename_i hs
      have hparent := h.parent s
      rwa [parent?, parent?, enter_getElem? env parent hs] at hparent
    · rename_i hs
      rw [parent?, hclosed hs]
  · rw [Environment.names, Environment.names, frame?, frame?, exit_getElem?, hmax]
    split
    · rename_i hs
      have hnames := h.names s
      rwa [Environment.names, Environment.names, frame?, frame?, enter_getElem? env parent hs] at hnames
    · rename_i hs
      rewrite [hclosed hs]
      exact List.prefix_rfl

end Environment

end FlowPath
