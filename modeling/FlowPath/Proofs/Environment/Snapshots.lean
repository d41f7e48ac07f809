import FlowPath.Proofs.Environment.Stack

/-!
# Chained scopes behave as snapshots

In `Snapshots` every scope has a map of its own with all that it sees: a new scope starts with a copy of
the map around it, reading looks into one map only, and assignments change the map of the innermost
scope and then the maps around it one by one. A stack of chained scopes holds far less, but it answers
alike (`performAll_snapshots`). The two are related through what their scopes see under every name, and
all operations have the same effect on that.
-/

namespace FlowPath

open Environment (slot? elementSet spread)

/-- An environment that keeps a map for every open scope. -/
structure Snapshots where
  /-- What the innermost scope sees. -/
  inner : Bindings := fun _ => none
  /-- What the scopes around it see, from inside to outside. -/
  outer : List Bindings := []

namespace Snapshots

/-- The map with one name bound anew. -/
def rebind (name : String) (value : Value) (map : Bindings) : Bindings :=
  fun other => if other = name then some value else map other

/-- The maps of all open scopes, from inside to outside. -/
def maps (snapshots : Snapshots) : List Bindings := snapshots.inner :: snapshots.outer

/-- The number of open scopes. -/
def size (snapshots : Snapshots) : Nat := snapshots.maps.length

/-- What the map of the scope binds to the name. The scopes have numbers from the root inward. -/
def read? (snapshots : Snapshots) (scope : Nat) (name : String) : Option Value :=
  snapshots.maps.reverse[scope]?.bind (· name)

/-- Changes what the innermost map binds to the name, and then the same in the maps around it as long as
they bind the name to a value with `goesOn`. -/
def update (goesOn : Value → Bool) (change : Option Value → Value) (name : String)
    (snapshots : Snapshots) : Snapshots :=
  let changed (map : Bindings) : Bindings := rebind name (change (map name)) map
  { inner := changed snapshots.inner
    outer :=
      (snapshots.outer.takeWhile fun map => (map name).any goesOn).map changed ++
        snapshots.outer.dropWhile fun map => (map name).any goesOn }

/-- Does an operation in the innermost scope. One that fails changes nothing. -/
def perform (snapshots : Snapshots) : Operation → Snapshots × Option ElementError
  | .enter => ({ inner := snapshots.inner, outer := snapshots.inner :: snapshots.outer }, none)
  | .exit =>
    match snapshots.outer with
    | [] => (snapshots, none)
    | next :: rest => ({ inner := next, outer := rest }, none)
  | .declare name value => ({ snapshots with inner := rebind name value snapshots.inner }, none)
  | .write name value => (snapshots.update Value.isDefined (fun _ => value) name, none)
  | .writeElement name index value =>
    match slot? index with
    | none => (snapshots, some (.badIndex name index.display))
    | some position =>
      if (snapshots.inner name).any Value.isArray then
        (snapshots.update Value.isArray (elementSet position value) name, none)
      else (snapshots, some (.noArray name ((snapshots.inner name).getD .undefined).typeName))

/-! ## What the maps bind to a name -/

/-- What the maps bind to the name, from inside to outside. -/
def sights (snapshots : Snapshots) (name : String) : List (Option Value) := snapshots.maps.map (· name)

theorem sights_update (goesOn : Value → Bool) (change : Option Value → Value) (bound : String)
    (snapshots : Snapshots) (name : String) :
    (snapshots.update goesOn change bound).sights name =
      if bound = name then
        some (change (snapshots.inner name)) :: spread goesOn change (snapshots.outer.map (· name))
      else snapshots.sights name := by
  split
  · rename_i hname
    subst hname
    simp only [sights, maps, update, rebind, spread, if_true, List.map_cons, List.map_append,
      List.map_map, List.takeWhile_map, List.dropWhile_map, Function.comp_def]
  · rename_i hname
    have hsame (map : Bindings) (value : Value) : rebind bound value map name = map name :=
      if_neg (Ne.symm hname)
    simp only [sights, maps, update, List.map_cons, List.map_append, List.map_map, Function.comp_def,
      hsame]
    rw [← List.map_append, List.takeWhile_append_dropWhile]

/-- Every operation acts on the maps as its effect says, for all names. -/
theorem perform_sights (snapshots : Snapshots) (operation : Operation) (name : String) :
    (snapshots.perform operation).1.sights name = operation.effect name (snapshots.sights name) := by
  obtain ⟨inner, outer⟩ := snapshots
  cases operation with
  | enter => rfl
  | exit => cases outer <;> rfl
  | declare bound value =>
    by_cases hname : bound = name
    · simp [perform, sights, maps, rebind, Operation.effect, hname]
    · simp [perform, sights, maps, rebind, Operation.effect, hname, Ne.symm hname]
  | write bound value => exact sights_update Value.isDefined (fun _ => value) bound ⟨inner, outer⟩ name
  | writeElement bound index value =>
    rw [show sights ⟨inner, outer⟩ name = inner name :: outer.map (· name) from rfl, perform,
      Operation.effect]
    cases slot? index with
    | none => rfl
    | some position =>
      have hupdate := sights_update Value.isArray (elementSet position value) bound ⟨inner, outer⟩ name
      by_cases hname : bound = name
      · subst hname
        rw [if_pos rfl] at hupdate
        simp only [true_and]
        split
        · exact hupdate
        · rfl
      · rw [if_neg hname] at hupdate
        simp only [hname, false_and, if_false]
        split
        · exact hupdate
        · rfl

/-- Operations fail by what the innermost map says. -/
theorem perform_error (snapshots : Snapshots) (operation : Operation) :
    (snapshots.perform operation).2 = operation.error? snapshots.inner := by
  cases operation with
  | enter | declare | write => rfl
  | exit =>
    unfold perform
    dsimp only
    split <;> rfl
  | writeElement name index value =>
    unfold perform Operation.error?
    dsimp only
    cases slot? index with
    | none => rfl
    | some position => cases (snapshots.inner name).any Value.isArray <;> rfl

/-! ## The two side by side -/

/-- The same scopes are open in both, and they see the same. -/
def Depicts (snapshots : Snapshots) (env : Environment) : Prop :=
  env.Stacked ∧ ∀ name, env.sights name env.innermost = snapshots.sights name

theorem depicts_start : Depicts {} {} := ⟨Environment.stacked_start, fun _ => rfl⟩

section Depicts

variable {snapshots : Snapshots} {env : Environment}

theorem Depicts.read?_innermost (h : Depicts snapshots env) :
    env.read? env.innermost = snapshots.inner := by
  funext name
  exact (h.1.sights_cons (h.2 name)).1

/-- The numbers of a stack count its sights from the far end. -/
theorem Depicts.sights_reverse (h : Depicts snapshots env) (name : String) :
    snapshots.maps.reverse.map (· name) = (List.range env.size).map (env.read? · name) := by
  rw [List.map_reverse, ← sights, ← h.2 name, h.1.sights, List.map_reverse, List.reverse_reverse]

theorem Depicts.size (h : Depicts snapshots env) : snapshots.size = env.size := by
  simpa [Snapshots.size] using congrArg List.length (h.sights_reverse "")

theorem Depicts.read? (h : Depicts snapshots env) (scope : Nat) (name : String) :
    env.read? scope name = snapshots.read? scope name := by
  have hplace := congrArg (·[scope]?) (h.sights_reverse name)
  simp only [List.getElem?_map] at hplace
  rw [Snapshots.read?]
  rcases Nat.lt_or_ge scope env.size with hopen | hclosed
  · rw [List.getElem?_range hopen] at hplace
    obtain ⟨map, hmap, hread⟩ := Option.map_eq_some_iff.mp hplace
    rw [hmap, Option.bind_some, hread]
  · have hnone : snapshots.maps.reverse[scope]? = none := by
      rw [List.getElem?_eq_none_iff, List.length_reverse]
      exact Nat.le_trans (Nat.le_of_eq h.size) hclosed
    rw [hnone, Environment.read?_eq_none hclosed]
    rfl

/-- An operation does the same on both sides, and fails on both or on none. -/
theorem Depicts.perform (h : Depicts snapshots env) (operation : Operation) :
    Depicts (snapshots.perform operation).1 (env.perform operation).1 ∧
      (env.perform operation).2 = (snapshots.perform operation).2 := by
  refine ⟨⟨h.1.perform operation, fun name => ?_⟩, ?_⟩
  · rw [h.1.perform_sights, h.2, perform_sights]
  · rw [h.1.perform_error, h.read?_innermost, perform_error]

theorem Depicts.performAll (h : Depicts snapshots env) (operations : List Operation) :
    Depicts (performAll Snapshots.perform snapshots operations).1
        (performAll Environment.perform env operations).1 ∧
      (FlowPath.performAll Environment.perform env operations).2 =
        (FlowPath.performAll Snapshots.perform snapshots operations).2 := by
  induction operations generalizing snapshots env with
  | nil => exact ⟨h, rfl⟩
  | cons operation rest ih =>
    obtain ⟨hnext, herror⟩ := h.perform operation
    obtain ⟨hfinal, herrors⟩ := ih hnext
    exact ⟨hfinal, List.cons_eq_cons.mpr ⟨herror, herrors⟩⟩

end Depicts

/-- Chained scopes behave as snapshots. After any operations on a new stack of scopes, the same scopes are
open in the chained environment and in the one that copies, every scope sees the same value under every
name in both, and the same operations have failed, with the same errors. The beginning of a sequence
is a sequence too, so this holds after every single step. -/
theorem performAll_snapshots (operations : List Operation) :
    let chained := FlowPath.performAll Environment.perform {} operations
    let copied := FlowPath.performAll Snapshots.perform {} operations
    chained.2 = copied.2 ∧ chained.1.size = copied.1.size ∧
      ∀ scope name, chained.1.read? scope name = copied.1.read? scope name := by
  obtain ⟨hdepicts, herrors⟩ := depicts_start.performAll operations
  exact ⟨herrors, hdepicts.size.symm, hdepicts.read?⟩

end Snapshots

end FlowPath
