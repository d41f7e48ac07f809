import Mathlib.Data.List.Forall2
import FlowPath.Graph.Wiring
import FlowPath.Proofs.Statement.Shown

/-!
# Numbers of statements

Numbering a sequence gives every shown statement the place it has in the order of the text
(`ids_numberAll`) and adds it to the draft (`draft_numberAll`), so the nodes of a graph are its shown
statements one after the other (`nodes_numberAll`). The numbered trees repeat the shape of the shown
statements: `Mirrors` relates the two, with whatever is known of a number and its statement.
-/

namespace FlowPath.Graph

open Statement (shownAll)

@[induction_eliminator]
theorem Numbered.induction {motive : Numbered → Prop}
    (node : ∀ id flow role children, (∀ child ∈ children, motive child) →
      motive ⟨id, flow, role, children⟩) (n : Numbered) : motive n :=
  @Numbered.rec motive (fun children => ∀ child ∈ children, motive child) node
    (fun _ h => absurd h List.not_mem_nil)
    (fun _ _ first rest => List.forall_mem_cons.mpr ⟨first, rest⟩) n

/-- Induction over forests: a sequence after the children of its first node and its other nodes. -/
theorem forest_induction {motive : List Numbered → Prop} (nil : motive [])
    (cons : ∀ node rest, motive node.children → motive rest → motive (node :: rest))
    (nodes : List Numbered) : motive nodes := by
  have inside : ∀ node : Numbered, motive node.children := by
    intro node
    induction node with
    | node id flow role children ih =>
      have part : ∀ list : List Numbered, (∀ child ∈ list, child ∈ children) → motive list := by
        intro list h
        induction list with
        | nil => exact nil
        | cons child others ihOthers =>
          rw [List.forall_mem_cons] at h
          exact cons child others (ih child h.1) (ihOthers h.2)
      exact part children fun _ h => h
  induction nodes with
  | nil => exact nil
  | cons node rest ih => exact cons node rest (inside node) ih

/-! ## The nodes of numbered trees -/

/-- The nodes of numbered trees, in the order of the text. -/
def listing (nodes : List Numbered) : List Numbered := (Numbered.outlineAll 0 nodes).map Prod.snd

/-- The numbers in numbered trees, in the order of the text. -/
def ids (nodes : List Numbered) : List Nat := (listing nodes).map (·.id)

theorem map_snd_outlineAll (nodes : List Numbered) (depth depth' : Nat) :
    (Numbered.outlineAll depth nodes).map Prod.snd = (Numbered.outlineAll depth' nodes).map Prod.snd := by
  induction nodes using forest_induction generalizing depth depth' with
  | nil => rfl
  | cons node rest ihInside ihRest =>
    obtain ⟨id, flow, role, children⟩ := node
    simp only [Numbered.outlineAll, Numbered.outline, List.map_append, List.map_cons]
    rw [ihInside (depth + 1) (depth' + 1), ihRest depth depth']

@[simp] theorem listing_nil : listing [] = [] := rfl

@[simp] theorem listing_cons (node : Numbered) (rest : List Numbered) :
    listing (node :: rest) = node :: (listing node.children ++ listing rest) := by
  obtain ⟨id, flow, role, children⟩ := node
  simp only [listing, Numbered.outlineAll, Numbered.outline, List.map_append, List.map_cons,
    List.cons_append]
  rw [map_snd_outlineAll children (0 + 1) 0]

@[simp] theorem listing_append (xs ys : List Numbered) : listing (xs ++ ys) = listing xs ++ listing ys := by
  induction xs with
  | nil => rfl
  | cons x rest ih => simp [ih]

theorem mem_listing {node : Numbered} {nodes : List Numbered} :
    node ∈ listing nodes ↔ ∃ n ∈ nodes, node = n ∨ node ∈ listing n.children := by
  induction nodes with
  | nil => simp
  | cons n rest ih =>
    simp only [listing_cons, List.mem_cons, List.mem_append, ih, exists_eq_or_imp, or_assoc]

theorem listing_sublist_of_mem {node : Numbered} {nodes : List Numbered} (h : node ∈ listing nodes) :
    (listing [node]).Sublist (listing nodes) := by
  induction nodes using forest_induction with
  | nil => exact absurd h List.not_mem_nil
  | cons n rest ihInside ihRest =>
    rw [listing_cons n rest, List.mem_cons, List.mem_append] at h
    rw [listing_cons n rest]
    rcases h with rfl | h | h
    · simp
    · exact ((ihInside h).trans (List.sublist_append_left _ _)).cons n
    · exact ((ihRest h).trans (List.sublist_append_right _ _)).cons n

@[simp] theorem ids_nil : ids [] = [] := rfl

@[simp] theorem ids_cons (node : Numbered) (rest : List Numbered) :
    ids (node :: rest) = node.id :: (ids node.children ++ ids rest) := by
  simp [ids]

@[simp] theorem ids_append (xs ys : List Numbered) : ids (xs ++ ys) = ids xs ++ ids ys := by
  simp [ids]

theorem mem_ids {id : Nat} {nodes : List Numbered} :
    id ∈ ids nodes ↔ ∃ node ∈ listing nodes, node.id = id := List.mem_map

/-! ## Numbering as adding statements to the draft -/

/-- The node that stands for a statement. -/
def nodeOf (id : Nat) (s : Statement) : Node :=
  match FlowClass.ofKind s.kind with
  | .returning => { id, step := none, label := "", shape := .circle, onPath := s.onPath }
  | .block => { id, step := some (id + 1), label := s.text, shape := .box, onPath := s.onPath }
  | .conditional | .loop =>
    { id, step := some (id + 1), label := s.text, shape := .diamond, onPath := s.onPath }

/-- Adds the node of a statement, and for a return what it says about the terminal. -/
def Draft.add (draft : Draft) (s : Statement) : Draft :=
  let added := draft.takeId.2.addNode (nodeOf draft.nextId s)
  if s.kind = .returning then added.addReturn (draft.nextId + 1) s.text s.onPath else added

@[simp] theorem nodeOf_id (id : Nat) (s : Statement) : (nodeOf id s).id = id := by
  unfold nodeOf; split <;> rfl

@[simp] theorem nodeOf_onPath (id : Nat) (s : Statement) : (nodeOf id s).onPath = s.onPath := by
  unfold nodeOf; split <;> rfl

theorem nodeOf_shape_eq_circle {id : Nat} {s : Statement} :
    (nodeOf id s).shape = .circle ↔ s.kind = .returning := by
  unfold nodeOf
  cases s.kind <;> simp [FlowClass.ofKind]

@[simp] theorem Draft.addReturn_nodes (draft : Draft) (step : Nat) (label : String) (onPath : Bool) :
    (draft.addReturn step label onPath).nodes = draft.nodes := by
  unfold Draft.addReturn; split <;> rfl

@[simp] theorem Draft.add_nodes (draft : Draft) (s : Statement) :
    (draft.add s).nodes = draft.nodes.push (nodeOf draft.nextId s) := by
  unfold Draft.add; split
  · rw [Draft.addReturn_nodes]; rfl
  · rfl

@[simp] theorem Draft.addReturn_nextId (draft : Draft) (step : Nat) (label : String) (onPath : Bool) :
    (draft.addReturn step label onPath).nextId = draft.nextId := by
  unfold Draft.addReturn; split <;> rfl

@[simp] theorem Draft.add_nextId (draft : Draft) (s : Statement) :
    (draft.add s).nextId = draft.nextId + 1 := by
  unfold Draft.add; split
  · rw [Draft.addReturn_nextId]; rfl
  · rfl

/-- A statement is added to the draft first, and the children that are shown come after it. -/
theorem number_eq (s : Statement) (draft : Draft) :
    number s draft =
      let inside := numberAll s.shownChildren (draft.add s)
      (⟨draft.nextId, .ofKind s.kind, s.role, inside.1⟩, inside.2) := by
  obtain ⟨kind, text, role, onPath, children⟩ := s
  cases kind <;> rfl

theorem numberAll_cons (s : Statement) (rest : List Statement) (draft : Draft) :
    numberAll (s :: rest) draft =
      let inside := numberAll s.shownChildren (draft.add s)
      let others := numberAll rest inside.2
      (⟨draft.nextId, .ofKind s.kind, s.role, inside.1⟩ :: others.1, others.2) := by
  rw [numberAll, number_eq]

/-- Induction along the order in which statements are numbered: a sequence after what is shown of
its first statement and after its other statements. -/
theorem shown_induction {motive : List Statement → Prop} (nil : motive [])
    (cons : ∀ s rest, motive s.shownChildren → motive rest → motive (s :: rest))
    (statements : List Statement) : motive statements := by
  have inside : ∀ s : Statement, motive s.shownChildren := by
    intro s
    induction s with
    | node kind text role onPath children ih =>
      have part : ∀ list : List Statement, (∀ child ∈ list, child ∈ children) → motive list := by
        intro list h
        induction list with
        | nil => exact nil
        | cons child others ihOthers =>
          rw [List.forall_mem_cons] at h
          exact cons child others (ih child h.1) (ihOthers h.2)
      exact part _ fun _ => Statement.mem_children_of_mem_shownChildren
  induction statements with
  | nil => exact nil
  | cons s rest ih => exact cons s rest (inside s) ih

theorem draft_numberAll (statements : List Statement) (draft : Draft) :
    (numberAll statements draft).2 = (shownAll statements).foldl Draft.add draft := by
  induction statements using shown_induction generalizing draft with
  | nil => rfl
  | cons s rest ihInside ihRest =>
    rw [numberAll_cons, Statement.shownAll_cons, List.foldl_cons, List.foldl_append]
    simp only [ihInside, ihRest]

theorem nodes_foldl_add (statements : List Statement) (draft : Draft) :
    (statements.foldl Draft.add draft).nodes.toList =
      draft.nodes.toList ++ statements.mapIdx fun i s => nodeOf (draft.nextId + i) s := by
  induction statements generalizing draft with
  | nil => simp
  | cons s rest ih =>
    rw [List.foldl_cons, ih, Draft.add_nodes, Draft.add_nextId, List.mapIdx_cons]
    simp [Nat.add_assoc, Nat.add_comm 1]

theorem nextId_foldl_add (statements : List Statement) (draft : Draft) :
    (statements.foldl Draft.add draft).nextId = draft.nextId + statements.length := by
  induction statements generalizing draft with
  | nil => rfl
  | cons s rest ih => rw [List.foldl_cons, ih, Draft.add_nextId, List.length_cons, Nat.add_right_comm, Nat.add_assoc]

/-- The counter is the number of nodes, and stays so. -/
theorem nextId_numberAll_eq_size (statements : List Statement) {draft : Draft}
    (h : draft.nextId = draft.nodes.size) :
    (numberAll statements draft).2.nextId = (numberAll statements draft).2.nodes.size := by
  have hnodes := congrArg List.length (nodes_foldl_add (shownAll statements) draft)
  rw [Array.length_toList, List.length_append, Array.length_toList, List.length_mapIdx] at hnodes
  rw [draft_numberAll, nextId_foldl_add, hnodes, h]

/-- The nodes of a graph are its shown statements, in the order of the text. -/
theorem nodes_numberAll (statements : List Statement) :
    (numberAll statements {}).2.nodes.toList = (shownAll statements).mapIdx nodeOf := by
  rw [draft_numberAll, nodes_foldl_add]
  simp

theorem ids_numberAll (statements : List Statement) (draft : Draft) :
    ids (numberAll statements draft).1 = List.range' draft.nextId (shownAll statements).length := by
  induction statements using shown_induction generalizing draft with
  | nil => rfl
  | cons s rest ihInside ihRest =>
    rw [numberAll_cons]
    simp only [ids_cons, ihInside, ihRest, draft_numberAll, nextId_foldl_add, Draft.add_nextId,
      Statement.shownAll_cons, List.length_cons, List.length_append, List.range'_succ]
    rw [List.range'_append_1]

theorem ids_numberAll_empty (statements : List Statement) :
    ids (numberAll statements {}).1 = List.range (shownAll statements).length := by
  rw [ids_numberAll, List.range_eq_range']

/-! ## Numbered trees and the statements they stand for -/

theorem ofKind_eq_conditional {kind : Statement.Kind} :
    FlowClass.ofKind kind = .conditional ↔ kind = .conditional := by cases kind <;> decide

theorem ofKind_eq_loop {kind : Statement.Kind} : FlowClass.ofKind kind = .loop ↔ kind = .loop := by
  cases kind <;> decide

/-- The numbered tree has the shape of what is shown of the statement, and `known` holds of every
number in it and its statement. -/
inductive Mirrors (known : Nat → Statement → Prop) : Numbered → Statement → Prop where
  | intro {node : Numbered} {s : Statement} (self : known node.id s)
      (flow : node.flow = .ofKind s.kind) (role : node.role = s.role)
      (inside : List.Forall₂ (Mirrors known) node.children s.shownChildren) : Mirrors known node s

section Parts

variable {known : Nat → Statement → Prop} {node : Numbered} {s : Statement}

theorem Mirrors.self (h : Mirrors known node s) : known node.id s := by
  obtain ⟨self, -, -, -⟩ := h
  exact self

theorem Mirrors.flow (h : Mirrors known node s) : node.flow = .ofKind s.kind := by
  obtain ⟨-, flow, -, -⟩ := h
  exact flow

theorem Mirrors.role (h : Mirrors known node s) : node.role = s.role := by
  obtain ⟨-, -, role, -⟩ := h
  exact role

theorem Mirrors.inside (h : Mirrors known node s) :
    List.Forall₂ (Mirrors known) node.children s.shownChildren := by
  obtain ⟨-, -, -, inside⟩ := h
  exact inside

end Parts

theorem mirrors_numberAll {all statements : List Statement} (pre post : List Statement) (draft : Draft)
    (hall : all = pre ++ shownAll statements ++ post) (hpre : pre.length = draft.nextId) :
    List.Forall₂ (Mirrors fun id s => all[id]? = some s) (numberAll statements draft).1 statements := by
  induction statements using shown_induction generalizing draft pre post with
  | nil => exact .nil
  | cons s rest ihInside ihRest =>
    rw [Statement.shownAll_cons] at hall
    rw [numberAll_cons]
    refine .cons (.intro ?_ rfl rfl ?_) ?_
    · rw [hall, ← hpre]; simp
    · exact ihInside (pre ++ [s]) (shownAll rest ++ post) _ (by simp [hall]) (by simp [hpre])
    · refine ihRest (pre ++ s :: shownAll s.shownChildren) post _ (by simp [hall]) ?_
      simp only [draft_numberAll, nextId_foldl_add, Draft.add_nextId, List.length_append,
        List.length_cons, hpre]
      omega

/-- The numbers of a graph are the places of the statements among those that are shown. -/
theorem mirrors_numberAll_empty (statements : List Statement) :
    List.Forall₂ (Mirrors fun id s => (shownAll statements)[id]? = some s)
      (numberAll statements {}).1 statements :=
  mirrors_numberAll [] [] {} (by simp) rfl

/-- The nodes of the trees go with the shown statements, one by one. -/
theorem forall₂_listing {known : Nat → Statement → Prop} {nodes : List Numbered}
    {statements : List Statement} (h : List.Forall₂ (Mirrors known) nodes statements) :
    List.Forall₂ (Mirrors known) (listing nodes) (shownAll statements) := by
  induction statements using shown_induction generalizing nodes with
  | nil => cases h; exact .nil
  | cons s rest ihInside ihRest =>
    cases h with
    | cons first others =>
      rw [listing_cons, Statement.shownAll_cons]
      exact .cons first (List.rel_append (ihInside first.inside) (ihRest others))

theorem exists_of_forall₂ {α β : Type} {R : α → β → Prop} {xs : List α} {ys : List β}
    (h : List.Forall₂ R xs ys) {x : α} (hx : x ∈ xs) : ∃ y ∈ ys, R x y := by
  induction h with
  | nil => exact absurd hx List.not_mem_nil
  | cons hab _ ih =>
    rcases List.mem_cons.mp hx with rfl | hx
    · exact ⟨_, List.mem_cons_self, hab⟩
    · obtain ⟨y, hy, hxy⟩ := ih hx
      exact ⟨y, List.mem_cons_of_mem _ hy, hxy⟩

/-- Lists that belong to keys, one after the other: those to one key are the list of that key. -/
theorem filter_flatMap_eq {α β κ : Type} [DecidableEq κ] {list : List α} {f : α → List β} {key : α → κ}
    {keyOf : β → κ} (hf : ∀ x ∈ list, ∀ y ∈ f x, keyOf y = key x) (hkeys : (list.map key).Nodup) {x : α}
    (hx : x ∈ list) :
    (list.flatMap f).filter (keyOf · = key x) = f x := by
  induction list with
  | nil => exact absurd hx List.not_mem_nil
  | cons first rest ih =>
    rw [List.map_cons, List.nodup_cons] at hkeys
    rw [List.forall_mem_cons] at hf
    have hne : ∀ other ∈ rest, key other ≠ key first := fun other ho he =>
      hkeys.1 (he ▸ List.mem_map_of_mem ho)
    rw [List.flatMap_cons, List.filter_append]
    rcases List.mem_cons.mp hx with rfl | hx
    · have hself : (f x).filter (keyOf · = key x) = f x :=
        List.filter_eq_self.mpr fun y hy => decide_eq_true (hf.1 y hy)
      have hrest : (rest.flatMap f).filter (keyOf · = key x) = [] := by
        refine List.filter_eq_nil_iff.mpr fun y hy => ?_
        obtain ⟨other, ho, hy⟩ := List.mem_flatMap.mp hy
        simp [hf.2 other ho y hy, hne other ho]
      rw [hself, hrest, List.append_nil]
    · have hfirst : (f first).filter (keyOf · = key x) = [] :=
        List.filter_eq_nil_iff.mpr fun y hy => by simp [hf.1 y hy, (hne x hx).symm]
      rw [hfirst, List.nil_append, ih hf.2 hkeys.2 hx]

/-- Every node of the trees stands for a shown statement. -/
theorem exists_shown_of_mem_listing {known : Nat → Statement → Prop} {nodes : List Numbered}
    {statements : List Statement} (h : List.Forall₂ (Mirrors known) nodes statements)
    {node : Numbered} (hnode : node ∈ listing nodes) : ∃ s ∈ shownAll statements, Mirrors known node s :=
  exists_of_forall₂ (forall₂_listing h) hnode

/-! ## The terminal -/

theorem Draft.onPath_terminal_add (draft : Draft) (s : Statement) :
    (∃ t ∈ (draft.add s).terminal, t.onPath = true) ↔
      (∃ t ∈ draft.terminal, t.onPath = true) ∨ (s.kind = .returning ∧ s.onPath = true) := by
  unfold Draft.add
  split
  · rename_i h
    obtain ⟨nodes, terminal, nextId⟩ := draft
    cases terminal <;> simp [Draft.takeId, Draft.addNode, Draft.addReturn, h]
  · rename_i h
    simp [Draft.takeId, Draft.addNode, h]

/-- The terminal lies on the path if one of the returns does. -/
theorem onPath_terminal_foldl_add (statements : List Statement) (draft : Draft) :
    (∃ t ∈ (statements.foldl Draft.add draft).terminal, t.onPath = true) ↔
      (∃ t ∈ draft.terminal, t.onPath = true) ∨
        ∃ s ∈ statements, s.kind = .returning ∧ s.onPath = true := by
  induction statements generalizing draft with
  | nil => simp
  | cons s rest ih =>
    rw [List.foldl_cons, ih, Draft.onPath_terminal_add]
    simp only [List.mem_cons, exists_eq_or_imp, or_assoc]

end FlowPath.Graph
