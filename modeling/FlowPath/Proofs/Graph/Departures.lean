import FlowPath.Proofs.Graph.Wiring

/-!
# How control leaves a node

Every node is left in a fixed number of ways: a block straight on, a return straight on and to the
terminal, a conditional and a loop one way each for a condition that holds and one that does not. A
way is taken by an edge or, where the sequence ends, by an exit. `departures_perm` counts the ways of
all nodes together; since no two nodes share a number, that gives the ways of every single one.
-/

namespace FlowPath.Graph

/-- A way to leave a node. -/
inductive Departure where
  /-- To the terminal, without a label. -/
  | toTerminal
  /-- On to what follows. -/
  | onward (way : Way)
deriving DecidableEq, Repr

/-- The ways to leave a node of a class. -/
def FlowClass.departures : FlowClass → List Departure
  | .block => [.onward .straight]
  | .returning => [.toTerminal, .onward .straight]
  | .conditional | .loop => [.onward .whenTrue, .onward .whenFalse]

/-- The edge closes a loop: it leads to it from itself or from a node inside it. -/
def closesLoop (nodes : List Numbered) (edge : Edge) : Bool :=
  (listing nodes).any fun loop =>
    loop.flow = .loop && edge.target = .node loop.id && (ids [loop]).contains edge.source

/-- The way that an edge takes, going by its target and its label. The label of an edge that closes a
loop has to say so. -/
def Edge.departure? (edge : Edge) (closing : Bool) : Option Departure :=
  match edge.target, edge.label with
  | .terminal, none => some .toTerminal
  | .node _, some label =>
    ([.straight, .whenTrue, .whenFalse].find? fun way : Way =>
      label = if closing then backLabel way else way.label).map .onward
  | _, _ => none

/-- The label is one of those that lead back to a loop. -/
def Edge.saysBack (edge : Edge) : Bool :=
  [Way.straight, .whenTrue, .whenFalse].any fun way => edge.label = some (backLabel way)

@[simp] theorem saysBack_edgeTo (source target : Nat) (way : Way) :
    (edgeTo source way target).saysBack = false := by
  cases way <;> rfl

@[simp] theorem saysBack_backTo (exit : Exit) (loop : Nat) : (exit.backTo loop).saysBack = true := by
  obtain ⟨node, way⟩ := exit
  cases way <;> rfl

@[simp] theorem departure?_edgeTo (source target : Nat) (way : Way) :
    (edgeTo source way target).departure? false = some (.onward way) := by
  cases way <;> rfl

@[simp] theorem departure?_backTo (exit : Exit) (loop : Nat) :
    (exit.backTo loop).departure? true = some (.onward exit.way) := by
  obtain ⟨node, way⟩ := exit
  cases way <;> rfl

/-- An edge says that it leads back exactly if it closes a loop. -/
theorem closesLoop_eq_saysBack {nodes : List Numbered} (hwf : WellFormed nodes) (hord : Ordered nodes)
    {edge : Edge} (h : edge ∈ (wiringOf nodes).edges) : closesLoop nodes edge = edge.saysBack := by
  cases edgeCases_of_mem_edges hwf hord h with
  | @forward source target way _ _ hlt eq =>
    subst eq
    rw [saysBack_edgeTo, Bool.eq_false_iff]
    intro hcloses
    -- The numbers inside a loop are not below its own.
    simp only [closesLoop, List.any_eq_true, Bool.and_eq_true, decide_eq_true_eq,
      List.contains_iff_mem, mem_ids_cons, ids_nil, List.not_mem_nil, or_false] at hcloses
    obtain ⟨loop, hloop, ⟨-, htarget⟩, hsource⟩ := hcloses
    have hid : target = loop.id := by simpa [edgeTo] using htarget
    have hle : loop.id ≤ source := by
      rcases hsource with hsource | hsource
      · exact Nat.le_of_eq hsource.symm
      · exact Nat.le_of_lt ((ordered_cons.mp (hord.of_mem_listing hloop)).1 _ hsource)
    omega
  | @back loop exit hloop hflow hsource eq =>
    subst eq
    rw [saysBack_backTo]
    simp only [closesLoop, List.any_eq_true, Bool.and_eq_true, decide_eq_true_eq, List.contains_iff_mem]
    exact ⟨loop, hloop, ⟨hflow, rfl⟩, mem_ids_of_back hsource⟩
  | @final node hnode hflow eq =>
    subst eq
    simp [closesLoop, Edge.saysBack]

/-! ## All departures together -/

/-- The departures of a wiring, each with the node that is left. -/
def Wiring.departures (wiring : Wiring) : List (Nat × Option Departure) :=
  wiring.edges.map (fun edge => (edge.source, edge.departure? edge.saysBack)) ++
    wiring.exits.map fun exit => (exit.node, some (.onward exit.way))

/-- The departures that a node should have. -/
def Numbered.departures (node : Numbered) : List (Nat × Option Departure) :=
  node.flow.departures.map fun departure => (node.id, some departure)

theorem Wiring.count_departures (wiring : Wiring) (d : Nat × Option Departure) :
    wiring.departures.count d =
      (wiring.edges.map fun edge => (edge.source, edge.departure? edge.saysBack)).count d +
        (wiring.exits.map fun exit => (exit.node, some (.onward exit.way))).count d :=
  List.count_append

/-- An exit that leads on to a node is left as before. -/
theorem map_edgeTo_departures (exits : List Exit) (target : Nat) :
    (exits.map (·.edgeTo target)).map (fun edge => (edge.source, edge.departure? edge.saysBack)) =
      exits.map fun exit => (exit.node, some (.onward exit.way)) := by
  simp only [List.map_map, Function.comp_def, Exit.edgeTo, saysBack_edgeTo, departure?_edgeTo]
  rfl

/-- An exit that leads back to a loop is left as before. -/
theorem map_backTo_departures (exits : List Exit) (loop : Nat) :
    (exits.map (·.backTo loop)).map (fun edge => (edge.source, edge.departure? edge.saysBack)) =
      exits.map fun exit => (exit.node, some (.onward exit.way)) := by
  simp only [List.map_map, Function.comp_def, saysBack_backTo, departure?_backTo]
  rfl

/-- A node leaves once into each of its groups, be it through the edge into the group or, if the
group is empty, through the exit that stands for it. -/
theorem branch_departures_perm (id : Nat) (way : Way) (group : List Numbered) :
    ((entryOf id way group).map (fun edge => (edge.source, edge.departure? edge.saysBack)) ++
        (branchOf id way group).departures).Perm
      ((id, some (.onward way)) :: (wiringOf group).departures) := by
  cases group with
  | nil => exact .refl _
  | cons first rest =>
    rw [entryOf_cons, branchOf_cons, List.map_singleton, saysBack_edgeTo, departure?_edgeTo]
    exact .refl _

/-- Every node of a sequence is left in the ways of its class, and in no others. -/
theorem departures_perm {nodes : List Numbered} (hwf : WellFormed nodes) :
    (wiringOf nodes).departures.Perm ((listing nodes).flatMap Numbered.departures) := by
  refine wiring_induction
    (fun node => (wire node).wiring.departures.Perm ((listing [node]).flatMap Numbered.departures))
    (fun nodes => (wiringOf nodes).departures.Perm ((listing nodes).flatMap Numbered.departures))
    ?_ ?_ ?_ ?_ ?_ ?_ hwf
  · intro node h hleaf
    rw [wire_block h]
    simp [Wiring.departures, Numbered.departures, FlowClass.departures, h, hleaf]
  · intro node h hleaf
    rw [wire_returning h]
    simp [Wiring.departures, Numbered.departures, FlowClass.departures, h, hleaf, Edge.departure?]
  · intro node h hprimary halternate
    have hparts := flatMap_listing_perm node Numbered.departures
    have htrue := branch_departures_perm node.id .whenTrue node.primary
    have hfalse := branch_departures_perm node.id .whenFalse node.alternate
    rw [wire_conditional h]
    refine List.perm_iff_count.mpr fun d => ?_
    have h₁ := hprimary.count_eq d
    have h₂ := halternate.count_eq d
    have h₃ := hparts.count_eq d
    have h₄ := htrue.count_eq d
    have h₅ := hfalse.count_eq d
    simp only [listing_cons, listing_nil, List.append_nil, List.flatMap_cons, Numbered.departures,
      FlowClass.departures, h, List.map_cons, List.map_nil, List.map_append, List.count_append,
      List.count_cons, List.count_nil, Wiring.count_departures] at h₁ h₂ h₃ h₄ h₅ ⊢
    omega
  · intro node h hchildren
    have htrue := branch_departures_perm node.id .whenTrue node.children
    rw [wire_loop h]
    refine List.perm_iff_count.mpr fun d => ?_
    have h₁ := hchildren.count_eq d
    have h₂ := htrue.count_eq d
    simp only [listing_cons, listing_nil, List.append_nil, List.flatMap_cons, Numbered.departures,
      FlowClass.departures, h, List.map_cons, List.map_nil, List.map_append, List.count_append,
      List.count_cons, List.count_nil, Wiring.count_departures, map_backTo_departures] at h₁ h₂ ⊢
    omega
  · exact .refl _
  · intro node rest hnode hrest
    cases rest with
    | nil => exact hnode
    | cons next rest =>
      rw [wiringOf_cons_cons, listing_cons node]
      refine List.perm_iff_count.mpr fun d => ?_
      have h₁ := hnode.count_eq d
      have h₂ := hrest.count_eq d
      simp only [listing_cons node, listing_nil, List.append_nil, List.flatMap_cons,
        List.flatMap_append, List.map_append, List.count_append, Wiring.count_departures,
        map_edgeTo_departures] at h₁ h₂ ⊢
      omega

/-! ## The departures of one node -/

/-- How an edge or an exit of the sequence leaves the node with the given number. -/
def departuresFrom (nodes : List Numbered) (id : Nat) : List (Option Departure) :=
  ((wiringOf nodes).edges.filter (·.source = id)).map (fun edge => edge.departure? (closesLoop nodes edge)) ++
    ((wiringOf nodes).exits.filter (·.node = id)).map fun exit => some (.onward exit.way)

theorem departuresFrom_eq {nodes : List Numbered} (hwf : WellFormed nodes) (hord : Ordered nodes)
    (id : Nat) :
    departuresFrom nodes id = ((wiringOf nodes).departures.filter (·.1 = id)).map Prod.snd := by
  have hedges : ((wiringOf nodes).edges.filter (·.source = id)).map
        (fun edge => edge.departure? (closesLoop nodes edge)) =
      ((wiringOf nodes).edges.filter (·.source = id)).map fun edge => edge.departure? edge.saysBack :=
    List.map_congr_left fun edge hedge => by
      rw [closesLoop_eq_saysBack hwf hord (List.mem_of_mem_filter hedge)]
  rw [departuresFrom, hedges]
  simp only [Wiring.departures, List.filter_append, List.map_append, List.filter_map, List.map_map,
    Function.comp_def]

theorem fst_of_mem_departures {node : Numbered} {d : Nat × Option Departure}
    (h : d ∈ node.departures) : d.1 = node.id := by
  obtain ⟨departure, -, rfl⟩ := List.mem_map.mp h
  rfl

/-- Every node of a graph is left in exactly the ways of its class, through edges and through exits
of the sequence taken together: a block once and straight on, a return once to the terminal without a
label and once straight on, a conditional and a loop once if the condition holds and once if it does
not. Edges that close a loop, and no others, have the word for it behind their label. No edge starts
or ends anywhere but at a node of the graph or the terminal. -/
theorem departures_numberAll (statements : List Statement) :
    let nodes := (numberAll statements {}).1
    (∀ node ∈ listing nodes, (departuresFrom nodes node.id).Perm (node.flow.departures.map some)) ∧
      ∀ edge ∈ (wiringOf nodes).edges,
        edge.source ∈ ids nodes ∧ (edge.target = .terminal ∨ ∃ id ∈ ids nodes, edge.target = .node id) := by
  intro nodes
  have hwf : WellFormed nodes := wellFormed_numberAll statements
  have hord : Ordered nodes := ordered_numberAll statements {}
  refine ⟨fun node hnode => ?_, fun edge hedge => ?_⟩
  · have hnodup : (ids nodes).Nodup := hord.imp Nat.ne_of_lt
    have h := ((departures_perm hwf).filter (·.1 = node.id)).map Prod.snd
    rw [filter_flatMap_eq (fun _ _ _ => fst_of_mem_departures) hnodup hnode,
      ← departuresFrom_eq hwf hord] at h
    simpa [Numbered.departures, Function.comp_def] using h
  · cases edgeCases_of_mem_edges hwf hord hedge with
    | forward hsource htarget _ eq => exact ⟨eq ▸ hsource, .inr ⟨_, htarget, eq ▸ rfl⟩⟩
    | @back loop exit hloop _ hsource eq =>
      have hin : exit.node ∈ ids nodes :=
        ((listing_sublist_of_mem hloop).map _).subset (mem_ids_of_back hsource)
      exact ⟨eq ▸ hin, .inr ⟨loop.id, mem_ids.mpr ⟨loop, hloop, rfl⟩, eq ▸ rfl⟩⟩
    | @final node hnode _ eq => exact ⟨eq ▸ mem_ids.mpr ⟨node, hnode, rfl⟩, .inl (eq ▸ rfl)⟩

/-- A loop around a conditional without branches, and a return after it. -/
theorem departures_numberAll_loop_return :
    let nodes := (numberAll [.whileLoop "a" [.conditional "b" [] []], .returning "c"] {}).1
    (∃ node ∈ listing nodes, node.flow = .loop ∧
      (departuresFrom nodes node.id).Perm [some (.onward .whenTrue), some (.onward .whenFalse)]) ∧
    ∃ edge ∈ (wiringOf nodes).edges, edge.label = some "F\nwhile" ∧ edge.source ∈ ids nodes := by
  intro nodes
  obtain ⟨hdepartures, hedges⟩ :=
    departures_numberAll [.whileLoop "a" [.conditional "b" [] []], .returning "c"]
  refine ⟨⟨_, List.mem_cons_self, rfl, hdepartures _ List.mem_cons_self⟩, ?_⟩
  have h : { source := 1, target := .node 0, label := some "F\nwhile" } ∈ (wiringOf nodes).edges := by
    decide
  exact ⟨_, h, rfl, (hedges _ h).1⟩

end FlowPath.Graph
