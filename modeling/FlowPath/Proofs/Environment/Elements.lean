import FlowPath.Proofs.Environment.Ancestors

/-!
# Setting an element

Setting an element of a variable goes outward scope by scope, and each scope it comes to may hold another
list. `setInPlace` does it on an environment that it changes on the way, and so could fail with part of the
work done. It never does: only the first scope can be the wrong place (`setInPlaceAlong_eq`), so a failure
leaves everything as it was, and else `writeElement` says what comes of it.

`SetsElement` tells what becomes of a list. The scopes it happens in are those that `read?_updateAlong`
gives for lists (`read?_elementSet_of_reaches`), and the element reads back under the index that it was set
with (`eval_element`).
-/

namespace FlowPath

/-- One element of a list is set: the others stay, and `undefined` fills the list up to its place. -/
structure SetsElement (position : Nat) (value : Value) (before after : List Value) : Prop where
  length : after.length = max before.length (position + 1)
  element : after[position]? = some value
  others (i : Nat) (h : i < before.length) (hi : i ≠ position) : after[i]? = before[i]?
  filled (i : Nat) (h : before.length ≤ i) (hi : i < position) : after[i]? = some .undefined

namespace Environment

variable {env after : Environment} {scope : Nat} {name : String} {index value : Value}

theorem setsElement (elements : List Value) (position : Nat) (value : Value) :
    SetsElement position value elements (setElement elements position value) where
  length := by
    simp only [setElement, List.length_set, List.length_append, List.length_replicate]
    omega
  element := by
    rw [setElement, List.getElem?_set_self]
    simp only [List.length_append, List.length_replicate]
    omega
  others i h hi := by
    rw [setElement, List.getElem?_set_ne (Ne.symm hi), List.getElem?_append_left h]
  filled i h hi := by
    rw [setElement, List.getElem?_set_ne (by omega), List.getElem?_append_right h, List.getElem?_replicate,
      if_pos (by omega)]

/-! ## In place -/

/-- Sets the element in the first of the scopes, and in the following ones as long as they see a list. With an
error it leaves the environment as it is by then. -/
def setInPlaceAlong (name : String) (position : Nat) (value : Value) :
    List Nat → Environment → Except ElementError Unit × Environment
  | [], env => (.error (.noArray name Value.undefined.typeName), env)
  | scope :: outer, env =>
    match env.read? scope name with
    | some (.array elements) =>
      let env := env.declare scope name (.array (setElement elements position value))
      match outer with
      | [] => (.ok (), env)
      | next :: _ =>
        if env.seesArray name next then setInPlaceAlong name position value outer env else (.ok (), env)
    | other => (.error (.noArray name (other.getD .undefined).typeName), env)

/-- Assigns to an element of a variable in an environment that changes on the way. -/
def setInPlace (env : Environment) (scope : Nat) (name : String) (index value : Value) :
    Except ElementError Unit × Environment :=
  match index.position? with
  | some position =>
    if position < mostElements then setInPlaceAlong name position value (env.chain scope) env
    else (.error (.badIndex name index.display), env)
  | none => (.error (.badIndex name index.display), env)

/-- The environment after an attempt that changes nothing if it fails. -/
def orUnchanged (env : Environment) (result : Except ElementError Environment) :
    Except ElementError Unit × Environment :=
  match result with
  | .ok after => (.ok (), after)
  | .error e => (.error e, env)

theorem setInPlaceAlong_eq (name : String) (position : Nat) (value : Value) (scopes : List Nat)
    (env : Environment) :
    setInPlaceAlong name position value scopes env =
      env.orUnchanged (writeElementAlong name position value scopes env) := by
  induction scopes generalizing env with
  | nil => rfl
  | cons scope outer ih =>
    rw [setInPlaceAlong, writeElementAlong]
    generalize env.read? scope name = seen
    rcases seen with _ | (_ | _ | _ | _ | elements)
    iterate 5 rfl
    dsimp only
    cases outer with
    | nil => rfl
    | cons next rest =>
      dsimp only
      split
      · -- The next scope sees a list, so from there on nothing fails.
        rename_i harray
        rw [seesArray_eq] at harray
        rw [ih, writeElementAlong_eq, if_pos harray]
        rfl
      · rfl

/-- A failure leaves everything as it was. -/
theorem setInPlace_eq (env : Environment) (scope : Nat) (name : String) (index value : Value) :
    env.setInPlace scope name index value =
      env.orUnchanged (env.writeElement scope name index value) := by
  unfold setInPlace writeElement
  cases index.position? with
  | none => rfl
  | some position =>
    dsimp only
    split
    · exact setInPlaceAlong_eq name position value (env.chain scope) env
    · rfl

/-! ## Success and failure -/

theorem slot?_eq_none_iff :
    slot? index = none ↔ ∀ position, index.position? = some position → mostElements ≤ position := by
  simp [slot?, Option.filter_eq_none_iff]

theorem slot?_eq_some_iff {position : Nat} :
    slot? index = some position ↔ index.position? = some position ∧ position < mostElements := by
  simp [slot?, Option.filter_eq_some_iff]

theorem exists_slot_iff :
    (∃ position < mostElements, index.position? = some position) ↔ (slot? index).isSome = true := by
  simp only [Option.isSome_iff_exists, slot?_eq_some_iff, and_comm]

/-- The index is looked at first, then the variable. -/
theorem writeElement_eq_error_iff (h : env.Nested) (hs : scope < env.size) {e : ElementError} :
    env.writeElement scope name index value = .error e ↔
      (e = .badIndex name index.display ∧
        ∀ position, index.position? = some position → mostElements ≤ position) ∨
      (e = .noArray name ((env.read? scope name).getD .undefined).typeName ∧
        (∃ position < mostElements, index.position? = some position) ∧
        ∀ elements, env.read? scope name ≠ some (.array elements)) := by
  have harray : (∀ elements, env.read? scope name ≠ some (.array elements)) ↔
      ¬ (env.read? scope name).any Value.isArray = true := by
    rw [any_isArray_iff, not_exists]
  rw [writeElement_eq h hs, ← slot?_eq_none_iff, harray, exists_slot_iff]
  cases slot? index with
  | none => simpa using eq_comm
  | some position =>
    dsimp only
    split <;> rename_i hread
    · simp [hread]
    · simpa [hread] using eq_comm

theorem writeElement_eq_ok_iff (h : env.Nested) (hs : scope < env.size) :
    env.writeElement scope name index value = .ok after ↔
      ∃ position elements, index.position? = some position ∧ position < mostElements ∧
        env.read? scope name = some (.array elements) ∧
        updateAlong Value.isArray (elementSet position value) name (env.chain scope) env = after := by
  rw [writeElement_eq h hs]
  constructor
  · intro hwrite
    split at hwrite
    · cases hwrite
    · rename_i position hslot
      obtain ⟨hposition, hlt⟩ := slot?_eq_some_iff.mp hslot
      split at hwrite
      · rename_i harray
        obtain ⟨elements, hread⟩ := any_isArray_iff.mp harray
        exact ⟨position, elements, hposition, hlt, hread, Except.ok.inj hwrite⟩
      · cases hwrite
  · rintro ⟨position, elements, hposition, hlt, hread, rfl⟩
    rw [slot?_eq_some_iff.mpr ⟨hposition, hlt⟩]
    exact if_pos (any_isArray_iff.mpr ⟨elements, hread⟩)

/-! ## What comes of it -/

/-- An ancestor that is reached through lists has its own list with the element set. -/
theorem read?_elementSet_of_reaches (h : env.Nested) (hs : scope < env.size) {position steps ancestor : Nat}
    (hlist : (env.read? scope name).any Value.isArray = true)
    (hancestor : env.ancestor? steps scope = some ancestor)
    (hreach : env.Reaches Value.isArray name scope steps) :
    ∃ before changed, env.read? ancestor name = some (.array before) ∧
      (updateAlong Value.isArray (elementSet position value) name (env.chain scope) env).read? ancestor name =
        some (.array changed) ∧
      SetsElement position value before changed := by
  have hown : (env.read? ancestor name).any Value.isArray = true := by
    rcases steps with _ | steps
    · cases hancestor
      exact hlist
    · exact hreach (steps + 1) ancestor (Nat.succ_pos _) (Nat.le_refl _) hancestor
  obtain ⟨before, hbefore⟩ := any_isArray_iff.mp hown
  refine ⟨before, setElement before position value, hbefore, ?_, setsElement before position value⟩
  rw [(read?_updateAlong h hs Value.isArray (elementSet position value) name hancestor).1 hreach, hbefore]
  rfl

/-- The element of a variable, by its index. -/
theorem eval_element {α : Type} {seen : Bindings} {elements : List Value} {position : Nat}
    (hread : seen name = some (.array elements)) (helement : elements[position]? = some value)
    (hposition : index.position? = some position) (outer inner : α) {e : Expr α} (he : e.eval seen = index) :
    (Expr.element outer (.identifier inner name) e).eval seen = value := by
  simp only [Expr.eval, he, hread, Option.getD_some, Value.element, hposition, Option.bind_some,
    Value.elementAt?, helement]

/-- Setting an element is done as a whole or not at all, and the element reads back. Done in place it leaves
the environment unchanged if it fails. It fails exactly if the index names no position of a list that is not
too long, or else if the scope sees no list under the name. If it succeeds, the scope and all ancestors that
are reached through scopes that see a list, and no other ancestors, see the list that they saw with the one
element set, and an access with the same index gives the value. -/
theorem writeElement_atomic (h : env.Nested) (hs : scope < env.size) (name : String) (index value : Value) :
    env.setInPlace scope name index value = env.orUnchanged (env.writeElement scope name index value) ∧
    (∀ e, env.writeElement scope name index value = .error e ↔
      (e = .badIndex name index.display ∧
        ∀ position, index.position? = some position → mostElements ≤ position) ∨
      (e = .noArray name ((env.read? scope name).getD .undefined).typeName ∧
        (∃ position < mostElements, index.position? = some position) ∧
        ∀ elements, env.read? scope name ≠ some (.array elements))) ∧
    ∀ after, env.writeElement scope name index value = .ok after →
      ∃ position, index.position? = some position ∧
        (∀ steps ancestor, env.ancestor? steps scope = some ancestor →
          (env.Reaches Value.isArray name scope steps →
            ∃ before changed, env.read? ancestor name = some (.array before) ∧
              after.read? ancestor name = some (.array changed) ∧
              SetsElement position value before changed ∧
              changed.length ≤ max before.length mostElements) ∧
          (¬ env.Reaches Value.isArray name scope steps →
            after.read? ancestor name = env.read? ancestor name)) ∧
        ∀ (α : Type) (outer inner : α) (e : Expr α), e.eval (after.view scope) = index →
          (Expr.element outer (.identifier inner name) e).eval (after.view scope) = value := by
  refine ⟨setInPlace_eq env scope name index value, fun e => writeElement_eq_error_iff h hs, ?_⟩
  intro after hwrite
  obtain ⟨position, elements, hposition, hlt, hread, rfl⟩ := (writeElement_eq_ok_iff h hs).mp hwrite
  have hlist : (env.read? scope name).any Value.isArray = true := any_isArray_iff.mpr ⟨elements, hread⟩
  refine ⟨position, hposition, fun steps ancestor hancestor => ⟨fun hreach => ?_, ?_⟩, ?_⟩
  · obtain ⟨before, changed, hbefore, hafter, hset⟩ :=
      read?_elementSet_of_reaches h hs hlist hancestor hreach
    refine ⟨before, changed, hbefore, hafter, hset, ?_⟩
    rw [hset.length]
    omega
  · exact (read?_updateAlong h hs Value.isArray (elementSet position value) name hancestor).2
  · intro α outer inner e he
    obtain ⟨before, changed, -, hafter, hset⟩ :=
      read?_elementSet_of_reaches h hs hlist (show env.ancestor? 0 scope = some scope from rfl) reaches_zero
    exact eval_element hafter hset.element hposition outer inner he

/-- Four scopes one in the other. The innermost sees the empty list of its parent, the next one has a list of
its own, and the root a text. -/
def unlike : Environment :=
  let env : Environment := ({} : Environment).declare 0 "a" (.string "none")
  let env := (env.enter 0).declare 1 "a" (.array [.boolean true])
  let env := (env.enter 1).declare 2 "a" (.array [])
  env.enter 2

theorem writeElement_atomic_unlike :
    unlike.Nested ∧
    unlike.setInPlace 3 "a" (.string "last") .undefined = (.error (.badIndex "a" "last"), unlike) ∧
    unlike.setInPlace 0 "a" (.number 1) .undefined = (.error (.noArray "a" "string"), unlike) ∧
    ∃ after, unlike.setInPlace 3 "a" (.number 1) (.boolean false) = (.ok (), after) ∧
      (∃ changed, after.read? 2 "a" = some (.array changed) ∧
        SetsElement 1 (.boolean false) [] changed) ∧
      (∃ changed, after.read? 1 "a" = some (.array changed) ∧
        SetsElement 1 (.boolean false) [.boolean true] changed) ∧
      after.read? 0 "a" = some (.string "none") ∧
      (Expr.element () (.identifier () "a") (.number () 1)).eval (after.view 3) = .boolean false := by
  have hnested : unlike.Nested := Opened.nested
    (.enter (.declare (.enter (.declare (.enter (.declare .start 0 _ _) (by decide)) 1 _ _)
      (by decide)) 2 _ _) (by decide))
  have hone : (Value.number 1).position? = some 1 := by decide +kernel
  have hlast : (Value.string "last").position? = none := by decide +kernel
  have hreach {steps : Nat} (hsteps : steps ≤ 2) : unlike.Reaches Value.isArray "a" 3 steps := by
    intro i s hpos hle hancestor
    obtain rfl | rfl : i = 1 ∨ i = 2 := by omega
    · cases hancestor
      rfl
    · cases hancestor
      rfl
  refine ⟨hnested, ?_, ?_, ?_⟩
  · obtain ⟨hplace, hfails, -⟩ :=
      writeElement_atomic hnested (show 3 < unlike.size by decide) "a" (.string "last") .undefined
    rw [hplace, (hfails (.badIndex "a" "last")).mpr (.inl ⟨rfl, fun p hp => by simp [hlast] at hp⟩)]
    rfl
  · obtain ⟨hplace, hfails, -⟩ :=
      writeElement_atomic hnested (show 0 < unlike.size by decide) "a" (.number 1) .undefined
    rw [hplace, (hfails (.noArray "a" "string")).mpr (.inr ⟨rfl, ⟨1, by decide, hone⟩, nofun⟩)]
    rfl
  · obtain ⟨hplace, hfails, hsets⟩ :=
      writeElement_atomic hnested (show 3 < unlike.size by decide) "a" (.number 1) (.boolean false)
    rcases hwrite : unlike.writeElement 3 "a" (.number 1) (.boolean false) with e | after
    · obtain ⟨-, hindex⟩ | ⟨-, -, hread⟩ := (hfails e).mp hwrite
      · exact absurd (hindex 1 hone) (by decide)
      · exact absurd rfl (hread [])
    · obtain ⟨position, hposition, hancestors, heval⟩ := hsets after hwrite
      obtain rfl : 1 = position := Option.some.inj (hone.symm.trans hposition)
      obtain ⟨_, inner, ⟨⟩, hinner, hinnerSet, -⟩ := (hancestors 1 2 rfl).1 (hreach (by decide))
      obtain ⟨_, middle, ⟨⟩, hmiddle, hmiddleSet, -⟩ := (hancestors 2 1 rfl).1 (hreach (by decide))
      refine ⟨after, by rw [hplace, hwrite]; rfl, ⟨inner, hinner, hinnerSet⟩,
        ⟨middle, hmiddle, hmiddleSet⟩, ?_, heval Unit () () (.number () 1) rfl⟩
      exact (hancestors 3 0 rfl).2 fun hroot => absurd (hroot 3 0 (by decide) (by decide) rfl) (by decide)

end Environment

end FlowPath
