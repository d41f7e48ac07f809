import Mathlib.Data.List.Range
import FlowPath.Proofs.Environment.Stack

/-!
# Copies of a variable

Assignments leave copies of a variable in the scopes that they go through. As long as variables are
declared in the root alone, no copy is out of date: where a scope sees a defined value, so do all scopes
inside it, and it is the same value (`Coherent`). Every operation keeps that (`Coherent.effect`): an
assignment then stops only where nothing further out is defined (`Coherent.spread_eq`). So setting an
element changes one and the same list wherever there is something to be seen (`no_stale_copy`).
-/

namespace FlowPath

open Environment (elementSet setElement slot? spread spread_cons any_isArray_iff)

/-- What the inner of two scopes sees is not out of date. -/
def UpToDate (inner outer : Option Value) : Prop := outer.any Value.isDefined = true → inner = outer

/-- What the scopes of a chain see under a name, from the innermost one outward, with no copy that is
out of date. -/
abbrev Coherent (seen : List (Option Value)) : Prop := seen.IsChain UpToDate

/-- Puts a value in the place of a defined one. -/
def replaceDefined (value : Value) (seen : Option Value) : Option Value :=
  if seen.any Value.isDefined then some value else seen

section Coherent

variable {goesOn : Value → Bool} {change : Option Value → Value} {seen : Option Value}
  {outer : List (Option Value)}

theorem any_isDefined_of_isArray {seen : Option Value} (h : seen.any Value.isArray = true) :
    seen.any Value.isDefined = true := by
  obtain ⟨elements, rfl⟩ := any_isArray_iff.mp h
  rfl

theorem isDefined_of_replaceDefined {value : Value}
    (h : (replaceDefined value seen).any Value.isDefined = true) : seen.any Value.isDefined = true := by
  unfold replaceDefined at h
  split at h <;> assumption

/-- All defined values are the innermost one. -/
theorem Coherent.eq_of_mem (h : Coherent (seen :: outer)) {x : Option Value} (hx : x ∈ seen :: outer)
    (hdefined : x.any Value.isDefined = true) : seen = x := by
  induction outer generalizing seen with
  | nil => exact (List.mem_singleton.mp hx).symm
  | cons next rest ih =>
    obtain ⟨hnext, hrest⟩ := List.isChain_cons_cons.mp h
    rcases List.mem_cons.mp hx with rfl | hx
    · rfl
    · obtain rfl := ih hrest hx
      exact hnext hdefined

/-- An update reaches all defined values, if it would go on from the first one and never goes on to
`undefined`. -/
theorem Coherent.spread_eq (h : Coherent (seen :: outer))
    (hdefined : ∀ x : Option Value, x.any goesOn = true → x.any Value.isDefined = true)
    (hfirst : seen.any Value.isDefined = true → seen.any goesOn = true) :
    spread goesOn change outer = outer.map (replaceDefined (change seen)) := by
  induction outer generalizing seen with
  | nil => rfl
  | cons next rest ih =>
    obtain ⟨hnext, hrest⟩ := List.isChain_cons_cons.mp h
    rw [spread_cons]
    split
    · rename_i hgo
      obtain rfl := hnext (hdefined _ hgo)
      rw [List.map_cons, replaceDefined, if_pos (hdefined _ hgo), ih hrest fun _ => hgo]
    · -- A defined value further out would be the one in the next scope, which the update does not pass.
      rename_i hstop
      have hundefined : ∀ x ∈ next :: rest, ¬x.any Value.isDefined = true := by
        intro x hx hx'
        obtain rfl : next = x := Coherent.eq_of_mem hrest hx hx'
        obtain rfl := hnext hx'
        exact hstop (hfirst hx')
      refine ((List.map_congr_left fun x hx => ?_).trans (List.map_id _)).symm
      exact if_neg (hundefined x hx)

/-- All copies are replaced at once. -/
theorem Coherent.replace (h : Coherent (seen :: outer)) (value : Value) :
    Coherent (some value :: outer.map (replaceDefined value)) := by
  refine List.IsChain.cons ((List.isChain_map _).mpr (h.tail.imp ?_)) ?_
  · intro inner next hdate hdefined
    rw [hdate (isDefined_of_replaceDefined hdefined)]
  · intro next hnext hdefined
    obtain ⟨x, -, rfl⟩ := List.mem_map.mp (List.mem_of_mem_head? hnext)
    exact (if_pos (isDefined_of_replaceDefined hdefined)).symm

theorem Coherent.update (h : Coherent (seen :: outer)) (change : Option Value → Value)
    (hdefined : ∀ x : Option Value, x.any goesOn = true → x.any Value.isDefined = true)
    (hfirst : seen.any Value.isDefined = true → seen.any goesOn = true) :
    Coherent (some (change seen) :: spread goesOn change outer) := by
  rw [h.spread_eq hdefined hfirst]
  exact h.replace (change seen)

end Coherent

/-! ## Operations on a stack -/

def Operation.isDeclaration : Operation → Bool
  | .declare _ _ => true
  | _ => false

/-- The operations declare variables only while no scope but the root is open. -/
def DeclaresInRoot (env : Environment) : List Operation → Prop
  | [] => True
  | operation :: rest =>
    (operation.isDeclaration = true → env.size = 1) ∧ DeclaresInRoot (env.perform operation).1 rest

/-- No operation makes a copy go out of date, declarations in inner scopes apart. -/
theorem Coherent.effect {seen : List (Option Value)} (h : Coherent seen) (operation : Operation)
    (name : String) (hroot : operation.isDeclaration = true → seen.length = 1) :
    Coherent (operation.effect name seen) := by
  cases seen with
  | nil => cases operation <;> exact h
  | cons seen outer =>
    cases operation with
    | enter => exact List.isChain_cons_cons.mpr ⟨fun _ => rfl, h⟩
    | exit =>
      cases outer with
      | nil => exact h
      | cons next rest => exact h.tail
    | declare bound value =>
      obtain rfl : outer = [] := List.length_eq_zero_iff.mp (Nat.succ.inj (hroot rfl))
      rw [Operation.effect]
      split <;> exact List.isChain_singleton _
    | write bound value =>
      rw [Operation.effect]
      split
      · exact h.update (fun _ => value) (fun _ hgo => hgo) id
      · exact h
    | writeElement bound index value =>
      rw [Operation.effect]
      split
      · exact h
      · split
        · rename_i hseen
          exact h.update _ (fun _ => any_isDefined_of_isArray) fun _ => hseen.2
        · exact h

namespace Environment

/-- A stack of scopes without copies that are out of date. -/
structure Current (env : Environment) : Prop where
  stacked : env.Stacked
  coherent (name : String) : Coherent (env.sights name env.innermost)

section Current

variable {env : Environment}

theorem current_start : Current {} where
  stacked := stacked_start
  coherent _ := List.isChain_singleton _

theorem Current.perform (h : env.Current) (operation : Operation)
    (hroot : operation.isDeclaration = true → env.size = 1) : (env.perform operation).1.Current where
  stacked := h.stacked.perform operation
  coherent name := by
    rw [h.stacked.perform_sights]
    refine (h.coherent name).effect operation name fun hdeclares => ?_
    simpa [h.stacked.sights] using hroot hdeclares

theorem Current.performAll (h : env.Current) {operations : List Operation}
    (hroot : DeclaresInRoot env operations) :
    (performAll Environment.perform env operations).1.Current := by
  induction operations generalizing env with
  | nil => exact h
  | cons operation rest ih => exact ih (h.perform operation hroot.1) hroot.2

theorem Current.upToDate (h : env.Current) (name : String) {scope : Nat} (hs : scope + 1 < env.size) :
    UpToDate (env.read? (scope + 1) name) (env.read? scope name) := by
  have hchain := h.coherent name
  rw [h.stacked.sights, Coherent, List.isChain_map, List.isChain_reverse, List.isChain_range] at hchain
  exact hchain scope (by omega)

/-- All scopes that see a defined value see the innermost one. -/
theorem Current.read?_eq (h : env.Current) {name : String} {scope : Nat} (hs : scope < env.size)
    (hdefined : (env.read? scope name).any Value.isDefined = true) :
    env.read? env.innermost name = env.read? scope name := by
  have hcoherent := h.coherent name
  have hmem : env.read? scope name ∈ env.sights name env.innermost := by
    rw [h.stacked.sights]
    exact List.mem_map_of_mem (by simpa using hs)
  rw [sights_eq h.stacked.nested h.stacked.innermost_lt] at hcoherent hmem
  exact hcoherent.eq_of_mem hmem hdefined

/-- The update of an element replaces all defined values. -/
theorem Current.sights_writeElement (h : env.Current) {name : String} {elements : List Value}
    (hread : env.read? env.innermost name = some (.array elements)) {position : Nat} {value : Value}
    {after : Environment} (hafter : updateAlong Value.isArray (elementSet position value) name
      (env.chain env.innermost) env = after) :
    after.sights name after.innermost =
      (env.sights name env.innermost).map
        (replaceDefined (.array (setElement elements position value))) := by
  have hseen := sights_eq h.stacked.nested h.stacked.innermost_lt name
  have hcoherent := h.coherent name
  have hupdate := h.stacked.sights_updateAlong Value.isArray (elementSet position value) name hseen
  rw [hseen] at hcoherent
  rw [hafter, if_pos rfl, hcoherent.spread_eq (fun _ => any_isDefined_of_isArray)
    fun _ => any_isArray_iff.mpr ⟨elements, hread⟩] at hupdate
  rw [hupdate, hseen, hread]
  rfl

/-- An element that is set is set in all scopes that see a defined value. -/
theorem Current.read?_writeElement (h : env.Current) {name : String} {index value : Value}
    {after : Environment} (hwrite : env.writeElement env.innermost name index value = .ok after) :
    ∃ elements position, env.read? env.innermost name = some (.array elements) ∧
      index.position? = some position ∧
      ∀ scope < env.size, after.read? scope name =
        replaceDefined (.array (setElement elements position value)) (env.read? scope name) := by
  have hext : env.Extends after := extends_writeElement hwrite
  rw [writeElement_eq h.stacked.nested h.stacked.innermost_lt] at hwrite
  split at hwrite
  · cases hwrite
  · rename_i position hslot
    split at hwrite
    · rename_i harray
      obtain ⟨elements, hread⟩ := any_isArray_iff.mp harray
      have hsights := h.sights_writeElement hread (Except.ok.inj hwrite)
      rw [(h.stacked.of_extends hext).sights, h.stacked.sights, hext.size,
        List.map_map, List.map_inj_left] at hsights
      refine ⟨elements, position, hread, (Option.filter_eq_some_iff.mp hslot).1, fun scope hs => ?_⟩
      exact hsights scope (by simpa using hs)
    · cases hwrite

end Current

end Environment

/-- No scope has a copy that is out of date: what a scope sees as defined, the scope inside it sees as
well. So setting an element changes the same list in all scopes that see a defined value under the name,
and the other scopes see what they saw. -/
theorem no_stale_copy (operations : List Operation) (hroot : DeclaresInRoot {} operations) :
    let env := (performAll Environment.perform {} operations).1
    (∀ scope parent name value, env.parent? scope = some parent →
      env.read? parent name = some value → value.isUndefined = false →
      env.read? scope name = some value) ∧
    ∀ name index value after, env.writeElement env.innermost name index value = .ok after →
      ∃ elements position, index.position? = some position ∧ ∀ scope < env.size,
        (env.sees name scope = true → env.read? scope name = some (.array elements) ∧
          after.read? scope name = some (.array (setElement elements position value))) ∧
        (env.sees name scope = false → after.read? scope name = env.read? scope name) := by
  intro env
  have h : env.Current := Environment.current_start.performAll hroot
  refine ⟨?_, ?_⟩
  · intro scope parent name value hparent hread hdefined
    have hs := Environment.lt_size_of_parent? hparent
    rcases scope with _ | scope
    · rw [h.stacked.root] at hparent
      cases hparent
    · obtain rfl := Option.some.inj ((h.stacked.parent scope hs).symm.trans hparent)
      rw [h.upToDate name hs, hread]
      simp [hread, Value.isDefined, hdefined]
  · intro name index value after hwrite
    obtain ⟨elements, position, harray, hposition, hafter⟩ := h.read?_writeElement hwrite
    refine ⟨elements, position, hposition, fun scope hs => ?_⟩
    rw [hafter scope hs, Environment.sees_eq, replaceDefined]
    refine ⟨fun hdefined => ?_, fun hundefined => ?_⟩
    · rw [← h.read?_eq hs hdefined, harray]
      exact ⟨rfl, rfl⟩
    · rw [hundefined]
      rfl

/-- Two scopes inside the root, the outer one with a copy of a declared variable. -/
theorem no_stale_copy_nested :
    let operations : List Operation :=
      [.declare "a" (.array []), .enter, .write "a" (.array [.undefined]), .enter, .write "b" .undefined]
    DeclaresInRoot {} operations ∧
      (performAll Environment.perform {} operations).1.read? 2 "a" = some (.array [.undefined]) := by
  intro operations
  have hroot : DeclaresInRoot {} operations := ⟨fun _ => rfl, nofun, nofun, nofun, nofun, trivial⟩
  exact ⟨hroot, (no_stale_copy operations hroot).1 2 1 "a" _ rfl rfl rfl⟩

end FlowPath
