import FlowPath.Proofs.Environment.Scopes

/-!
# Assignments along a chain

Assigning to a variable and assigning to an element go outward through a chain of scopes in the same way:
`updateAlong` changes what the first scope binds to the name, and goes on as long as the next scope sees
a value of some kind. `write_eq` and `writeElement_eq` say which kinds and which changes.

`sights_updateAlong` tells what comes of it: of the scopes around the first one, those change that see
a value of the kind, up to the first one that does not.
-/

namespace FlowPath

/-- Anything but `undefined`. -/
def Value.isDefined (value : Value) : Bool := !value.isUndefined

namespace Environment

/-- Changes what the first of the scopes binds to the name, going by what it sees, and then the same in
the following ones as long as they see a value with `goesOn`. -/
def updateAlong (goesOn : Value → Bool) (change : Option Value → Value) (name : String) :
    List Nat → Environment → Environment
  | [], env => env
  | scope :: outer, env =>
    let env := env.declare scope name (change (env.read? scope name))
    match outer with
    | [] => env
    | next :: _ =>
      if (env.read? next name).any goesOn then updateAlong goesOn change name outer env else env

/-- The list that a variable holds with one element set. -/
def elementSet (position : Nat) (value : Value) : Option Value → Value
  | some (.array elements) => .array (setElement elements position value)
  | seen => seen.getD .undefined

theorem updateAlong_cons {goesOn : Value → Bool} {change : Option Value → Value} {name : String}
    {scope next : Nat} {outer : List Nat} {env : Environment} {value : Value}
    (hvalue : change (env.read? scope name) = value) (hnext : outer.head? = some next) :
    updateAlong goesOn change name (scope :: outer) env =
      if ((env.declare scope name value).read? next name).any goesOn then
        updateAlong goesOn change name outer (env.declare scope name value)
      else env.declare scope name value := by
  obtain ⟨rest, rfl⟩ := List.head?_eq_some_iff.mp hnext
  rw [updateAlong, hvalue]

theorem sees_eq (env : Environment) (name : String) (scope : Nat) :
    env.sees name scope = (env.read? scope name).any Value.isDefined := by
  unfold sees
  cases env.read? scope name <;> rfl

theorem seesArray_eq (env : Environment) (name : String) (scope : Nat) :
    env.seesArray name scope = (env.read? scope name).any Value.isArray := by
  unfold seesArray
  cases env.read? scope name <;> rfl

theorem any_isArray_iff {seen : Option Value} :
    seen.any Value.isArray = true ↔ ∃ elements, seen = some (.array elements) := by
  rcases seen with _ | value
  · simp
  · cases value <;> simp [Value.isArray]

theorem writeAlong_eq (name : String) (value : Value) (scopes : List Nat) (env : Environment) :
    writeAlong name value scopes env = updateAlong Value.isDefined (fun _ => value) name scopes env := by
  induction scopes generalizing env with
  | nil => rfl
  | cons scope outer ih =>
    cases outer with
    | nil => rfl
    | cons next rest =>
      rw [writeAlong, updateAlong]
      simp only [sees_eq, ih]

theorem write_eq (env : Environment) (scope : Nat) (name : String) (value : Value) :
    env.write scope name value =
      updateAlong Value.isDefined (fun _ => value) name (env.chain scope) env :=
  writeAlong_eq name value (env.chain scope) env

/-- Only the first scope can be the wrong place for an element. -/
theorem writeElementAlong_eq (name : String) (position : Nat) (value : Value) (scope : Nat)
    (outer : List Nat) (env : Environment) :
    writeElementAlong name position value (scope :: outer) env =
      if (env.read? scope name).any Value.isArray then
        .ok (updateAlong Value.isArray (elementSet position value) name (scope :: outer) env)
      else .error (.noArray name ((env.read? scope name).getD .undefined).typeName) := by
  induction outer generalizing scope env with
  | nil =>
    rw [writeElementAlong]
    split
    · rename_i elements hread
      simp [hread, updateAlong, elementSet, Value.isArray]
    · rename_i hread
      rw [if_neg fun h => (any_isArray_iff.mp h).elim hread]
  | cons next rest ih =>
    rw [writeElementAlong]
    split
    · rename_i elements hread
      have hgo : (env.read? scope name).any Value.isArray = true := any_isArray_iff.mpr ⟨elements, hread⟩
      rw [if_pos hgo, updateAlong]
      simp only [hread, elementSet, seesArray_eq, ih]
      split <;> rfl
    · rename_i hread
      rw [if_neg fun h => (any_isArray_iff.mp h).elim hread]

/-- The position that an index names, unless it lies beyond the longest lists. -/
def slot? (index : Value) : Option Nat := index.position?.filter (· < mostElements)

theorem writeElement_eq {env : Environment} (h : env.Nested) {scope : Nat} (hs : scope < env.size)
    (name : String) (index value : Value) :
    env.writeElement scope name index value =
      match slot? index with
      | none => .error (.badIndex name index.display)
      | some position =>
        if (env.read? scope name).any Value.isArray then
          .ok (updateAlong Value.isArray (elementSet position value) name (env.chain scope) env)
        else .error (.noArray name ((env.read? scope name).getD .undefined).typeName) := by
  unfold writeElement slot?
  cases index.position? with
  | none => rfl
  | some position =>
    by_cases hmost : position < mostElements
    · simp only [hmost, if_true, Option.filter_some, decide_true]
      rw [chain_eq h hs, writeElementAlong_eq]
    · simp only [hmost, if_false, Option.filter_some, decide_false, Bool.false_eq_true]

/-! ## What stays -/

theorem extends_updateAlong (goesOn : Value → Bool) (change : Option Value → Value) (name : String)
    (scopes : List Nat) (env : Environment) :
    env.Extends (updateAlong goesOn change name scopes env) := by
  induction scopes generalizing env with
  | nil => exact .refl env
  | cons scope outer ih =>
    have hfirst := extends_declare env scope name (change (env.read? scope name))
    unfold updateAlong
    dsimp only
    split
    · exact hfirst
    · split
      · exact hfirst.trans (ih _)
      · exact hfirst

theorem extends_write (env : Environment) (scope : Nat) (name : String) (value : Value) :
    env.Extends (env.write scope name value) := by
  rw [write_eq]
  exact extends_updateAlong _ _ _ _ env

theorem extends_writeElement {env env' : Environment} {scope : Nat} {name : String} {index value : Value}
    (h : env.writeElement scope name index value = .ok env') : env.Extends env' := by
  unfold writeElement at h
  split at h
  · split at h
    · cases hchain : env.chain scope with
      | nil =>
        rw [hchain] at h
        cases h
      | cons first outer =>
        rw [hchain, writeElementAlong_eq] at h
        split at h
        · cases h
          exact extends_updateAlong _ _ _ _ env
        · cases h
    · cases h
  · cases h

section Stays

variable (goesOn : Value → Bool) (change : Option Value → Value) (name : String) (scopes : List Nat)

theorem updateAlong_own?_of_not_mem (env : Environment) {s : Nat} (h : s ∉ scopes) (other : String) :
    (updateAlong goesOn change name scopes env).own? other s = env.own? other s := by
  induction scopes generalizing env with
  | nil => rfl
  | cons scope outer ih =>
    rw [List.mem_cons, not_or] at h
    have hfirst := declare_own?_of_ne env scope name (change (env.read? scope name)) h.1 other
    unfold updateAlong
    dsimp only
    split
    · exact hfirst
    · split
      · exact (ih _ h.2).trans hfirst
      · exact hfirst

theorem updateAlong_own?_of_ne (env : Environment) {other : String} (h : other ≠ name) (s : Nat) :
    (updateAlong goesOn change name scopes env).own? other s = env.own? other s := by
  induction scopes generalizing env with
  | nil => rfl
  | cons scope outer ih =>
    have hfirst : (env.declare scope name (change (env.read? scope name))).own? other s =
        env.own? other s := by simp [declare_own?, h]
    unfold updateAlong
    dsimp only
    split
    · exact hfirst
    · split
      · exact (ih _).trans hfirst
      · exact hfirst

end Stays

/-! ## What the scopes of a chain see -/

/-- What the scopes of a chain see under the name, from the given scope outward. -/
def sights (env : Environment) (name : String) (scope : Nat) : List (Option Value) :=
  (env.chain scope).map (env.read? · name)

section Sights

variable {env env' : Environment} {name : String} {scope : Nat}

theorem sights_eq (h : env.Nested) (hs : scope < env.size) (name : String) :
    env.sights name scope =
      env.read? scope name :: (env.parent? scope).elim [] (env.sights name) := by
  rw [sights, chain_eq h hs, List.map_cons]
  cases env.parent? scope <;> rfl

theorem sights_congr (h : env.Nested) (h' : env'.Nested) (hs : scope < env.size)
    (hs' : scope < env'.size) (hparent : ∀ s ≤ scope, env'.parent? s = env.parent? s)
    (hown : ∀ s ≤ scope, env'.own? name s = env.own? name s) :
    env'.sights name scope = env.sights name scope := by
  rw [sights, sights, chain_congr h h' hs hs' hparent]
  refine List.map_congr_left fun s hmem => ?_
  have hle := le_of_mem_chain h hs s hmem
  exact read?_congr h h' (by omega) (by omega) (fun t ht => hparent t (by omega))
    fun t ht => hown t (by omega)

/-- A scope sees what it binds itself. -/
theorem sights_of_own? (h : env.Nested) (hs : scope < env.size) {value : Value}
    (hown : env.own? name scope = some value) :
    env.sights name scope = some value :: (env.parent? scope).elim [] (env.sights name) := by
  rw [sights_eq h hs, read?_eq h hs, hown]
  rfl

/-- Declaring a variable changes what its scope sees and nothing further out. -/
theorem declare_sights (h : env.Nested) (hs : scope < env.size) (name : String) (value : Value) :
    (env.declare scope name value).sights name scope =
      some value :: (env.parent? scope).elim [] (env.sights name) := by
  have h' := (extends_declare env scope name value).nested h
  rw [sights_of_own? h' (by simpa using hs) (declare_own?_self env scope name value hs), declare_parent?]
  refine congrArg _ ?_
  cases hparent : env.parent? scope with
  | none => rfl
  | some parent =>
    have hlt := h scope parent hparent
    exact sights_congr h h' (by omega) (by simp; omega) (fun s _ => by simp)
      fun s hle => declare_own?_of_ne env scope name value (by omega) name

/-- The values of the kind at the front change, the others stay. -/
def spread (goesOn : Value → Bool) (change : Option Value → Value) (seen : List (Option Value)) :
    List (Option Value) :=
  (seen.takeWhile (·.any goesOn)).map (fun value => some (change value)) ++
    seen.dropWhile (·.any goesOn)

theorem spread_cons {goesOn : Value → Bool} {change : Option Value → Value} (seen : Option Value)
    (outer : List (Option Value)) :
    spread goesOn change (seen :: outer) =
      if seen.any goesOn then some (change seen) :: spread goesOn change outer else seen :: outer := by
  unfold spread
  split <;> rename_i h <;> simp [h]

/-- The first scope of a chain changes, and then the scopes around it as long as they see a value of the
kind. -/
theorem sights_updateAlong (goesOn : Value → Bool) (change : Option Value → Value) (name : String)
    (h : env.Nested) (hs : scope < env.size) :
    (updateAlong goesOn change name (env.chain scope) env).sights name scope =
      some (change (env.read? scope name)) ::
        spread goesOn change ((env.parent? scope).elim [] (env.sights name)) := by
  -- The induction goes outward along the parents.
  induction scope using Nat.strongRecOn generalizing env with
  | ind scope ih =>
    have hdeclare := declare_sights h hs name (change (env.read? scope name))
    rw [chain_eq h hs]
    cases hparent : env.parent? scope with
    | none =>
      rw [hparent] at hdeclare
      exact hdeclare
    | some parent =>
      rw [hparent] at hdeclare
      have hlt := h scope parent hparent
      generalize hvalue : change (env.read? scope name) = value at hdeclare
      generalize hdeclared : env.declare scope name value = declared at hdeclare
      have hext : env.Extends declared := hdeclared ▸ extends_declare env scope name value
      have h' := hext.nested h
      have hopen' : parent < declared.size := by rw [hext.size]; omega
      have hs' : scope < declared.size := by rwa [hext.size]
      have hchain : declared.chain parent = env.chain parent :=
        chain_congr h h' (by omega) hopen' fun s _ => hext.parent s
      have hsights : declared.sights name parent = env.sights name parent := by
        rw [sights_eq h' hs', hext.parent, hparent] at hdeclare
        exact (List.cons.inj hdeclare).2
      have hhead : (env.chain parent).head? = some parent := by
        rw [chain_eq h (show parent < env.size by omega)]
        rfl
      simp only [Option.elim_some]
      rw [updateAlong_cons hvalue hhead, hdeclared, ← hsights, sights_eq h' hopen', spread_cons]
      split
      · -- The scopes further out do not touch what this one binds.
        have hown : (updateAlong goesOn change name (env.chain parent) declared).own? name scope =
            some value := by
          rw [updateAlong_own?_of_not_mem, ← hdeclared, declare_own?_self env scope name value hs]
          intro hmem
          have := le_of_mem_chain h (show parent < env.size by omega) scope hmem
          omega
        have hext' := extends_updateAlong goesOn change name (env.chain parent) declared
        rw [sights_of_own? (hext'.nested h') (by rwa [hext'.size]) hown, hext'.parent, hext.parent,
          hparent, ← ih parent hlt h' hopen', hchain]
        rfl
      · rw [← sights_eq h' hopen', hsights]
        exact hdeclare

end Sights

end Environment

end FlowPath
