import FlowPath.Proofs.Graph.Reach

/-!
# No node is stranded

Every node of a graph lies on a way from the first node to an exit. That all nodes can be reached is
`connected_of_followed` for the whole graph, since control may take all branches. `leaves_of_mem_ids`
is the other half: from every node control can leave the sequence. A branch is left through its own
exits, the body of a loop leads back to the loop, and a statement leads on to the next one.
-/

namespace FlowPath.Graph

/-- A way along edges, through any nodes. -/
abbrev Leads (edges : List Edge) : Nat → Nat → Prop := Reaches (fun _ => True) edges

/-- Along the edges some exit can be reached from the node. -/
def Leaves (edges : List Edge) (exits : List Exit) (id : Nat) : Prop :=
  ∃ exit ∈ exits, Leads edges id exit.node

theorem Leaves.mono {edges edges' : List Edge} {exits exits' : List Exit} {id : Nat}
    (h : Leaves edges exits id) (hedges : ∀ edge ∈ edges, edge ∈ edges')
    (hexits : ∀ exit ∈ exits, exit ∈ exits') : Leaves edges' exits' id := by
  obtain ⟨exit, hexit, hleads⟩ := h
  exact ⟨exit, hexits exit hexit, hleads.mono hedges⟩

theorem Leaves.head {edges : List Edge} {exits : List Exit} {source target : Nat} {way : Way}
    (hedge : edgeTo source way target ∈ edges) (h : Leaves edges exits target) :
    Leaves edges exits source := by
  obtain ⟨exit, hexit, hleads⟩ := h
  exact ⟨exit, hexit, .head (step_edgeTo trivial trivial hedge) hleads⟩

/-- Control may go anywhere. -/
theorem followed_everywhere (node : Numbered) : Followed (fun _ => True) node := by
  induction node with
  | node id flow role children ih =>
    have taken : ∀ child : Numbered, child.inTaken true true = true := fun child => ite_self _
    refine .intro true true trivial (fun _ => .inl rfl) (fun _ => rfl)
      (fun child hchild _ => ih child hchild) ?_
    intro child _ hleft
    rw [taken] at hleft
    cases hleft

/-! ## Ways out -/

/-- A group is left through the exits of its branch, also from the node that branches into it. -/
theorem leaves_branchOf (id : Nat) (way : Way) {group : List Numbered} (edges : List Edge)
    (hgroup : ∀ i ∈ ids group, Leaves (wiringOf group).edges (wiringOf group).exits i)
    (hentry : ∀ edge ∈ entryOf id way group, edge ∈ edges)
    (hedges : ∀ edge ∈ (wiringOf group).edges, edge ∈ edges) :
    ∀ i, i = id ∨ i ∈ ids group → Leaves edges (branchOf id way group).exits i := by
  cases group with
  | nil =>
    rintro i (rfl | hi)
    · exact ⟨_, List.mem_cons_self, .refl⟩
    · exact absurd hi List.not_mem_nil
  | cons first rest =>
    have inside : ∀ i ∈ ids (first :: rest), Leaves edges (branchOf id way (first :: rest)).exits i :=
      fun i hi => (hgroup i hi).mono hedges fun _ h => h
    rintro i (rfl | hi)
    · exact .head (hentry (edgeTo i way first.id) (by simp)) (inside first.id (by simp))
    · exact inside i hi

theorem leaves_conditional {node : Numbered} (h : node.flow = .conditional)
    (hprimary : ∀ i ∈ ids node.primary, Leaves (wiringOf node.primary).edges (wiringOf node.primary).exits i)
    (halternate : ∀ i ∈ ids node.alternate,
      Leaves (wiringOf node.alternate).edges (wiringOf node.alternate).exits i) :
    ∀ i ∈ ids [node], Leaves (wire node).wiring.edges (wire node).wiring.exits i := by
  rw [wire_conditional h]
  simp only [branchOf_edges]
  generalize hE : entryOf node.id .whenTrue node.primary ++ entryOf node.id .whenFalse node.alternate ++
    (wiringOf node.primary).edges ++ (wiringOf node.alternate).edges = edges
  have whenTrue := leaves_branchOf node.id .whenTrue edges hprimary
    (fun _ he => by simp [← hE, he]) (fun _ he => by simp [← hE, he])
  have whenFalse := leaves_branchOf node.id .whenFalse edges halternate
    (fun _ he => by simp [← hE, he]) (fun _ he => by simp [← hE, he])
  intro i hi
  have hsplit : i = node.id ∨ i ∈ ids node.primary ∨ i ∈ ids node.alternate := by
    have hperm : (ids (node.primary ++ node.alternate)).Perm (ids node.children) :=
      (listing_perm (primary_append_alternate_perm node)).map _
    rw [mem_ids_cons, ids_nil, ← hperm.mem_iff, ids_append, List.mem_append] at hi
    simpa using hi
  rcases hsplit with hi | hi | hi
  · exact (whenTrue i (.inl hi)).mono (fun _ he => he) fun _ he => List.mem_append_left _ he
  · exact (whenTrue i (.inr hi)).mono (fun _ he => he) fun _ he => List.mem_append_left _ he
  · exact (whenFalse i (.inr hi)).mono (fun _ he => he) fun _ he => List.mem_append_right _ he

/-- From the body of a loop control comes back to the loop, which is left when its condition fails. -/
theorem leaves_loop {node : Numbered} (h : node.flow = .loop)
    (hbody : ∀ i ∈ ids node.children,
      Leaves (wiringOf node.children).edges (wiringOf node.children).exits i) :
    ∀ i ∈ ids [node], Leaves (wire node).wiring.edges (wire node).wiring.exits i := by
  rw [wire_loop h]
  simp only [branchOf_edges]
  generalize hE : entryOf node.id .whenTrue node.children ++ (wiringOf node.children).edges ++
    (branchOf node.id .whenTrue node.children).exits.map (·.backTo node.id) = edges
  have body := leaves_branchOf node.id .whenTrue edges hbody
    (fun _ he => by simp [← hE, he]) (fun _ he => by simp [← hE, he])
  intro i hi
  simp only [mem_ids_cons, ids_nil, List.not_mem_nil, or_false] at hi
  obtain ⟨exit, hexit, hleads⟩ := body i hi
  have hback : exit.backTo node.id ∈ edges := by
    rw [← hE]
    exact List.mem_append_right _ (List.mem_map.mpr ⟨exit, hexit, rfl⟩)
  exact ⟨_, List.mem_cons_self, hleads.tail ⟨trivial, trivial, _, hback, rfl, rfl⟩⟩

/-- The exits of a statement lead on to the next one. -/
theorem leaves_cons {node : Numbered} {rest : List Numbered}
    (hnode : ∀ i ∈ ids [node], Leaves (wire node).wiring.edges (wire node).wiring.exits i)
    (hrest : ∀ i ∈ ids rest, Leaves (wiringOf rest).edges (wiringOf rest).exits i) :
    ∀ i ∈ ids (node :: rest), Leaves (wiringOf (node :: rest)).edges (wiringOf (node :: rest)).exits i := by
  cases rest with
  | nil => exact hnode
  | cons next rest =>
    rw [wiringOf_cons_cons]
    generalize hE : (wire node).wiring.edges ++ (wire node).wiring.exits.map (·.edgeTo next.id) ++
      (wiringOf (next :: rest)).edges = edges
    have onward : ∀ i ∈ ids (next :: rest), Leaves edges (wiringOf (next :: rest)).exits i :=
      fun i hi => (hrest i hi).mono (fun _ he => by simp [← hE, he]) fun _ h => h
    intro i hi
    rcases List.mem_append.mp (show i ∈ ids [node] ++ ids (next :: rest) by simpa using hi) with hi | hi
    · obtain ⟨exit, hexit, hleads⟩ := hnode i hi
      have hlink : exit.edgeTo next.id ∈ edges := by
        rw [← hE]
        exact List.mem_append_left _ (List.mem_append_right _ (List.mem_map.mpr ⟨exit, hexit, rfl⟩))
      obtain ⟨last, hlast, hfinal⟩ := Leaves.head hlink (onward next.id (by simp))
      exact ⟨last, hlast, (hleads.mono fun _ he => by simp [← hE, he]).trans hfinal⟩
    · exact onward i hi

theorem leaves_of_mem_ids {nodes : List Numbered} (hwf : WellFormed nodes) :
    ∀ i ∈ ids nodes, Leaves (wiringOf nodes).edges (wiringOf nodes).exits i := by
  refine wiring_induction
    (fun node => ∀ i ∈ ids [node], Leaves (wire node).wiring.edges (wire node).wiring.exits i)
    (fun nodes => ∀ i ∈ ids nodes, Leaves (wiringOf nodes).edges (wiringOf nodes).exits i)
    ?_ ?_ (fun _ => leaves_conditional) (fun _ => leaves_loop) nofun (fun _ _ => leaves_cons) hwf
  · intro node h hleaf i hi
    obtain rfl : i = node.id := by simpa [hleaf] using hi
    exact ⟨{ node := node.id, way := .straight }, wire_block h ▸ List.mem_cons_self, .refl⟩
  · intro node h hleaf i hi
    obtain rfl : i = node.id := by simpa [hleaf] using hi
    exact ⟨{ node := node.id, way := .straight }, wire_returning h ▸ List.mem_cons_self, .refl⟩

/-! ## Whole graphs -/

/-- The first node of a sequence leads to all of its nodes. -/
theorem leads_numberAll (statements : List Statement) :
    ∀ id ∈ ids (numberAll statements {}).1,
      Leads (wiringOf (numberAll statements {}).1).edges 0 id := by
  cases statements with
  | nil => exact nofun
  | cons s rest =>
    intro id hid
    obtain ⟨node, hnode, rfl⟩ := mem_ids.mp hid
    have hfirst : (⟨0, .ofKind s.kind, s.role, (numberAll s.shownChildren (Draft.add {} s)).1⟩ : Numbered) ∈
        (numberAll (s :: rest) {}).1.head? := by
      rw [numberAll_cons]
      rfl
    exact (connected_of_followed (wellFormed_numberAll (s :: rest)) (fun n _ => followed_everywhere n)
      _ hfirst).nodes node hnode trivial

theorem id_mem_ids_numberAll (statements : List Statement) {node : Node}
    (h : node ∈ (numberAll statements {}).2.nodes.toList) : node.id ∈ ids (numberAll statements {}).1 := by
  rw [nodes_numberAll] at h
  obtain ⟨i, hi, rfl⟩ := List.mem_mapIdx.mp h
  rw [ids_numberAll_empty, nodeOf_id]
  exact List.mem_range.mpr hi

/-- No node of a graph is stranded. The graph of a sequence that is not empty has a node 0, from there
all nodes can be reached along edges, and from all nodes some exit of the sequence; the same holds in
the graph of every function, for the exits of its statements. -/
theorem no_node_stranded :
    (∀ statements : List Statement, statements ≠ [] →
      let numbered := numberAll statements {}
      let wiring := wiringOf numbered.1
      (∃ node ∈ numbered.2.nodes.toList, node.id = 0) ∧
        ∀ node ∈ numbered.2.nodes.toList, Leads wiring.edges 0 node.id ∧
          ∃ exit ∈ wiring.exits, Leads wiring.edges node.id exit.node) ∧
    ∀ function : Statement, ∀ node ∈ (ofFunction function).nodes,
      Leads (ofFunction function).edges 0 node.id ∧
        ∃ exit ∈ (wiringOf (numberAll function.children {}).1).exits,
          Leads (ofFunction function).edges node.id exit.node := by
  have passage (statements : List Statement) : ∀ node ∈ (numberAll statements {}).2.nodes.toList,
      Leads (wiringOf (numberAll statements {}).1).edges 0 node.id ∧
        Leaves (wiringOf (numberAll statements {}).1).edges
          (wiringOf (numberAll statements {}).1).exits node.id := by
    intro node hnode
    have hid := id_mem_ids_numberAll statements hnode
    exact ⟨leads_numberAll statements _ hid, leaves_of_mem_ids (wellFormed_numberAll statements) _ hid⟩
  refine ⟨fun statements hne => ⟨?_, passage statements⟩, fun function => passage function.children⟩
  obtain ⟨s, rest, rfl⟩ := List.exists_cons_of_ne_nil hne
  refine ⟨nodeOf 0 s, ?_, nodeOf_id 0 s⟩
  rw [nodes_numberAll, Statement.shownAll_cons, List.mapIdx_cons]
  exact List.mem_cons_self

/-- A statement in the branch of a conditional inside a loop, with a return after the loop. -/
theorem no_node_stranded_loop_return :
    let statements := [.whileLoop "a" [.conditional "b" [] [.plain "c"]], .returning "d"]
    let numbered := numberAll statements {}
    let wiring := wiringOf numbered.1
    ∃ node ∈ numbered.2.nodes.toList, node.label = "c" ∧ Leads wiring.edges 0 node.id ∧
      ∃ exit ∈ wiring.exits, Leads wiring.edges node.id exit.node := by
  intro statements numbered wiring
  obtain ⟨-, hpassage⟩ := no_node_stranded.1 statements (List.cons_ne_nil _ _)
  have hnode : { id := 2, step := some 3, label := "c", shape := .box, onPath := false } ∈
      numbered.2.nodes.toList := by decide
  exact ⟨_, hnode, rfl, hpassage _ hnode⟩

end FlowPath.Graph
