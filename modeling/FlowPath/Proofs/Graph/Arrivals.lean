import Mathlib.Data.List.Perm.Basic
import FlowPath.Proofs.Graph.BackEdges
import FlowPath.Proofs.Graph.Departures
import FlowPath.Proofs.Graph.Merging

/-!
# How control comes to a node

Leaving aside the edges that lead back to a loop, control comes to a node from the node before it in its
group, through all exits of that one, and to the first node of a group from the node that branches into it.
`arrivals` lists the nodes of a group with the exits that lead to them. Every node of a graph stands in one
group (`map_fst_allArrivals_perm`), and the edges of the lists are all edges there are
(`entering_perm_flatMap`), so each node is entered as its list says (`entering_perm`).
-/

namespace FlowPath.Graph

/-! ## Arrivals -/

/-- The edges that lead to a node and not back. -/
def entering (nodes : List Numbered) (id : Nat) : List Edge :=
  (forwardEdges (wiringOf nodes).edges).filter (·.target = .node id)

/-- The nodes of a group, each with the exits that lead to it: those of the node before it, and `entry` for
the first one. -/
def arrivals (entry : List Exit) : List Numbered → List (Numbered × List Exit)
  | [] => []
  | node :: rest => (node, entry) :: arrivals (wire node).wiring.exits rest

/-- The edges from the exits that lead to a node. -/
def arrivalEdges (arrival : Numbered × List Exit) : List Edge := arrival.2.map (·.edgeTo arrival.1.id)

/-- The arrivals in the groups that a node branches into. -/
def Numbered.arrivals (node : Numbered) : List (Numbered × List Exit) :=
  Graph.arrivals [{ node := node.id, way := .whenTrue }] node.whenTrue ++
    Graph.arrivals [{ node := node.id, way := .whenFalse }] node.whenFalse

/-- The arrivals in all groups of a graph. -/
def allArrivals (nodes : List Numbered) : List (Numbered × List Exit) :=
  arrivals [] nodes ++ (listing nodes).flatMap Numbered.arrivals

theorem map_fst_arrivals (entry : List Exit) (group : List Numbered) :
    (arrivals entry group).map Prod.fst = group := by
  induction group generalizing entry with
  | nil => rfl
  | cons node rest ih => rw [arrivals, List.map_cons, ih]

theorem mem_arrivals_head {entry : List Exit} {group : List Numbered} {first : Numbered}
    (h : first ∈ group.head?) : (first, entry) ∈ arrivals entry group := by
  obtain ⟨rest, rfl⟩ := List.head?_eq_some_iff.mp h
  exact List.mem_cons_self

theorem mem_arrivals_append (entry : List Exit) (before after : List Numbered) (previous node : Numbered) :
    (node, (wire previous).wiring.exits) ∈ arrivals entry (before ++ previous :: node :: after) := by
  induction before generalizing entry with
  | nil => exact List.mem_cons_of_mem _ List.mem_cons_self
  | cons first rest ih => exact List.mem_cons_of_mem _ (ih _)

/-- A node of a group is the first one or comes after another one. -/
theorem eq_head_or_append_of_mem {group : List Numbered} {node : Numbered} (h : node ∈ group) :
    node ∈ group.head? ∨ ∃ before previous after, group = before ++ previous :: node :: after := by
  obtain ⟨before, after, rfl⟩ := List.append_of_mem h
  rcases List.eq_nil_or_concat before with rfl | ⟨front, previous, rfl⟩
  · exact .inl rfl
  · exact .inr ⟨front, previous, after, by simp⟩

/-! ## Every node stands in one group -/

/-- The nodes of trees are the roots and the children of nodes. -/
theorem append_flatMap_children_perm (nodes : List Numbered) :
    (nodes ++ (listing nodes).flatMap (·.children)).Perm (listing nodes) := by
  induction nodes using forest_induction with
  | nil => exact .nil
  | cons node rest ihInside ihRest =>
    rw [listing_cons, List.flatMap_cons, List.flatMap_append]
    refine List.Perm.cons node ?_
    have hboth := ihInside.append ihRest
    refine List.Perm.trans ?_ hboth
    calc rest ++ (node.children ++ ((listing node.children).flatMap (·.children) ++
          (listing rest).flatMap (·.children)))
      _ = rest ++ (node.children ++ (listing node.children).flatMap (·.children)) ++
          (listing rest).flatMap (·.children) := by simp only [List.append_assoc]
      List.Perm _ (node.children ++ (listing node.children).flatMap (·.children) ++ rest ++
          (listing rest).flatMap (·.children)) := List.perm_append_comm.append_right _
      _ = _ := by simp only [List.append_assoc]

theorem map_fst_arrivals_perm (node : Numbered) : (node.arrivals.map Prod.fst).Perm node.children := by
  rw [Numbered.arrivals, List.map_append, map_fst_arrivals, map_fst_arrivals]
  exact whenTrue_append_whenFalse_perm node

theorem map_fst_allArrivals_perm (nodes : List Numbered) :
    ((allArrivals nodes).map Prod.fst).Perm (listing nodes) := by
  refine List.Perm.trans ?_ (append_flatMap_children_perm nodes)
  rw [allArrivals, List.map_append, map_fst_arrivals, List.map_flatMap]
  exact (List.Perm.flatMap_left _ fun node _ => map_fst_arrivals_perm node).append_left nodes

/-! ## The edges of arrivals -/

theorem flatMap_arrivals_cons (entry : List Exit) (first : Numbered) (rest : List Numbered) :
    (arrivals entry (first :: rest)).flatMap arrivalEdges =
      entry.map (·.edgeTo first.id) ++ links (first :: rest) := by
  induction rest generalizing entry first with
  | nil => simp [arrivals, arrivalEdges, links]
  | cons next rest ih =>
    rw [arrivals, List.flatMap_cons, ih, links]
    rfl

theorem flatMap_arrivals_nil (group : List Numbered) :
    (arrivals [] group).flatMap arrivalEdges = links group := by
  cases group with
  | nil => rfl
  | cons first rest => exact flatMap_arrivals_cons [] first rest

theorem flatMap_arrivals_entry (id : Nat) (way : Way) (group : List Numbered) :
    (arrivals [{ node := id, way }] group).flatMap arrivalEdges = entryOf id way group ++ links group := by
  cases group with
  | nil => rfl
  | cons first rest =>
    rw [flatMap_arrivals_cons, entryOf_cons]
    rfl

/-- An edge that leads to the node and not back. -/
def Edge.enters (id : Nat) (edge : Edge) : Bool := edge.target = .node id && !edge.endsInWhile

theorem entering_eq (nodes : List Numbered) (id : Nat) :
    entering nodes id = (wiringOf nodes).edges.filter (·.enters id) := by
  rw [entering, forwardEdges, List.filter_filter]
  rfl

/-- Of the edges that a node adds, those that do not lead back or to the terminal are the arrivals in its
groups. -/
theorem filter_ownEdges_perm {node : Numbered}
    (hleaf : node.flow = .block ∨ node.flow = .returning → node.children = []) (id : Nat) :
    ((ownEdges node).filter (·.enters id)).Perm
      ((node.arrivals.flatMap arrivalEdges).filter (·.enters id)) := by
  have hgroups : node.arrivals.flatMap arrivalEdges =
      entryOf node.id .whenTrue node.whenTrue ++ links node.whenTrue ++
        (entryOf node.id .whenFalse node.whenFalse ++ links node.whenFalse) := by
    rw [Numbered.arrivals, List.flatMap_append, flatMap_arrivals_entry, flatMap_arrivals_entry]
  have hempty (h : node.children = []) : node.arrivals.flatMap arrivalEdges = [] := by
    have hnone := (map_fst_arrivals_perm node).length_eq
    rw [h, List.length_map, List.length_nil, List.length_eq_zero_iff] at hnone
    rw [hnone]
    rfl
  unfold ownEdges
  split
  · rename_i hflow
    rw [hempty (hleaf (.inl hflow))]
  · rename_i hflow
    rw [hempty (hleaf (.inr hflow))]
    exact .refl _
  · rename_i hflow
    have hnot : node.flow ≠ .loop := by rw [hflow]; decide
    rw [hgroups, whenTrue_of_not_loop hnot, whenFalse_of_not_loop hnot]
    refine List.Perm.filter _ (List.perm_iff_count.mpr fun edge => ?_)
    simp only [List.count_append]
    omega
  · rename_i hflow
    have hback (exits : List Exit) :
        (exits.map (·.backTo node.id)).filter (·.enters id) = [] := by
      refine List.filter_eq_nil_iff.mpr (List.forall_mem_map.mpr fun exit _ => ?_)
      simp [Edge.enters]
    rw [hgroups, whenTrue_of_loop hflow, whenFalse_of_loop hflow, List.filter_append, hback]
    simp [links]

theorem entering_perm_flatMap {nodes : List Numbered} (hwf : WellFormed nodes) (id : Nat) :
    (entering nodes id).Perm
      (((allArrivals nodes).flatMap arrivalEdges).filter (·.target = .node id)) := by
  have hforward : ∀ edge ∈ (allArrivals nodes).flatMap arrivalEdges,
      edge.enters id = decide (edge.target = .node id) := by
    intro edge hedge
    obtain ⟨arrival, -, hin⟩ := List.mem_flatMap.mp hedge
    obtain ⟨exit, -, rfl⟩ := List.mem_map.mp hin
    simp [Edge.enters, Exit.edgeTo]
  rw [entering_eq, ← List.filter_congr hforward, allArrivals, List.flatMap_append, List.flatMap_assoc,
    flatMap_arrivals_nil]
  refine ((edges_perm hwf).filter _).trans ?_
  rw [List.filter_append, List.filter_append, List.filter_flatMap, List.filter_flatMap]
  exact (List.Perm.flatMap_left _ fun node hnode => filter_ownEdges_perm (hwf node hnode) id).append_left _

/-- A node is entered through the exits that lead to it, once through each. -/
theorem entering_perm {nodes : List Numbered} (hwf : WellFormed nodes) (hord : Ordered nodes)
    {node : Numbered} {exits : List Exit} (h : (node, exits) ∈ allArrivals nodes) :
    (entering nodes node.id).Perm (exits.map (·.edgeTo node.id)) := by
  have hkeys : ((allArrivals nodes).map fun arrival => Target.node arrival.1.id).Nodup := by
    have hids : (((allArrivals nodes).map Prod.fst).map (·.id)).Nodup :=
      ((map_fst_allArrivals_perm nodes).map _).nodup_iff.mpr (hord.imp Nat.ne_of_lt)
    rw [List.map_map] at hids
    have hinj : Function.Injective Target.node := fun a b heq => Target.node.inj heq
    simpa [List.map_map, Function.comp_def] using hids.map hinj
  have htargets : ∀ arrival ∈ allArrivals nodes, ∀ edge ∈ arrivalEdges arrival,
      edge.target = .node arrival.1.id := by
    intro arrival _ edge hedge
    obtain ⟨exit, -, rfl⟩ := List.mem_map.mp hedge
    rfl
  have hown : ((allArrivals nodes).flatMap arrivalEdges).filter (·.target = .node node.id) =
      exits.map (·.edgeTo node.id) := filter_flatMap_eq htargets hkeys h
  have hperm := entering_perm_flatMap hwf node.id
  rwa [hown] at hperm

/-! ## Exits -/

theorem Exit.edgeTo_injective (target : Nat) : Function.Injective fun exit : Exit => exit.edgeTo target := by
  rintro ⟨node, way⟩ ⟨node', way'⟩ h
  simp only [Exit.edgeTo, Graph.edgeTo, Edge.mk.injEq, Option.some.injEq] at h
  obtain ⟨rfl, -, hlabel⟩ := h
  cases way <;> cases way' <;> first | rfl | exact absurd hlabel (by decide)

/-- No exit of a node is listed twice. -/
theorem nodup_exits {node : Numbered} (hwf : WellFormed [node]) (hord : Ordered [node]) :
    (wire node).wiring.exits.Nodup := by
  have hdepartures : ((listing [node]).flatMap Numbered.departures).Nodup := by
    refine List.nodup_flatMap.mpr ⟨fun n _ => ?_, ?_⟩
    · refine List.Nodup.map (fun a b heq => ?_) ?_
      · exact Option.some.inj (Prod.mk.inj heq).2
      · cases n.flow <;> decide
    · have hids : (listing [node]).Pairwise fun a b => a.id ≠ b.id :=
        (List.pairwise_map.mp hord).imp Nat.ne_of_lt
      refine hids.imp fun hne d hd hd' => hne ?_
      rw [← fst_of_mem_departures hd, fst_of_mem_departures hd']
  have hall : (wire node).wiring.departures.Nodup := (departures_perm hwf).nodup_iff.mpr hdepartures
  exact (List.Nodup.of_append_right hall).of_map _

/-- A sequence is left through the exits of its last node. -/
theorem wiringOf_exits {nodes : List Numbered} {last : Numbered} (h : nodes.getLast? = some last) :
    (wiringOf nodes).exits = (wire last).wiring.exits := by
  induction nodes with
  | nil => cases h
  | cons node rest ih =>
    cases rest with
    | nil =>
      cases h
      rfl
    | cons next rest =>
      rw [List.getLast?_cons_cons] at h
      rw [wiringOf_cons_cons]
      exact ih h

/-- The number of exits of a branch: those of its last node, or just the way out if it is empty. -/
def branchExits (group : List Numbered) : Nat :=
  group.getLast?.elim 1 fun last => (wire last).wiring.exits.length

theorem length_branchOf_exits (id : Nat) (way : Way) (group : List Numbered) :
    (branchOf id way group).exits.length = branchExits group := by
  cases group with
  | nil => rfl
  | cons node rest =>
    obtain ⟨last, hlast⟩ : ∃ last, (node :: rest).getLast? = some last :=
      ⟨_, List.getLast?_eq_some_getLast (List.cons_ne_nil node rest)⟩
    rw [branchOf_cons, wiringOf_exits hlast, branchExits, hlast]
    rfl

theorem length_exits (node : Numbered) :
    (wire node).wiring.exits.length =
      match node.flow with
      | .block | .returning | .loop => 1
      | .conditional => branchExits node.primary + branchExits node.alternate := by
  split
  · rw [wire_block ‹_›]
    rfl
  · rw [wire_returning ‹_›]
    rfl
  · rw [wire_loop ‹_›]
    rfl
  · rw [wire_conditional ‹_›, List.length_append, length_branchOf_exits, length_branchOf_exits]

/-! ## Main statement -/

/-- The node comes right after the other one in a group of the graph. -/
def Follows (nodes : List Numbered) (previous node : Numbered) : Prop :=
  ∃ group ∈ groups nodes, ∃ before after, group = before ++ previous :: node :: after

theorem mem_listing_of_mem_groups {nodes group : List Numbered} (h : group ∈ groups nodes) {node : Numbered}
    (hnode : node ∈ group) : node ∈ listing nodes := by
  have hself : node ∈ listing group := mem_listing.mpr ⟨node, hnode, .inl rfl⟩
  rcases List.mem_cons.mp h with rfl | h
  · exact hself
  · obtain ⟨parent, hparent, hgroup⟩ := List.mem_flatMap.mp h
    have hchild : node ∈ parent.children := by
      rcases List.mem_pair.mp hgroup with rfl | rfl
      · exact mem_children_of_mem_whenTrue hnode
      · exact mem_children_of_mem_whenFalse hnode
    refine (listing_sublist_of_mem hparent).subset (mem_listing.mpr ⟨parent, List.mem_cons_self, .inr ?_⟩)
    exact mem_listing.mpr ⟨node, hchild, .inl rfl⟩

theorem mem_allArrivals_of_follows {nodes : List Numbered} {previous node : Numbered}
    (h : Follows nodes previous node) : (node, (wire previous).wiring.exits) ∈ allArrivals nodes := by
  obtain ⟨group, hgroup, before, after, rfl⟩ := h
  rcases List.mem_cons.mp hgroup with rfl | hgroup
  · exact List.mem_append_left _ (mem_arrivals_append [] before after previous node)
  · obtain ⟨parent, hparent, hin⟩ := List.mem_flatMap.mp hgroup
    refine List.mem_append_right _ (List.mem_flatMap.mpr ⟨parent, hparent, ?_⟩)
    rcases List.mem_pair.mp hin with heq | heq
    · refine List.mem_append_left _ ?_
      rw [← heq]
      exact mem_arrivals_append _ before after previous node
    · refine List.mem_append_right _ ?_
      rw [← heq]
      exact mem_arrivals_append _ before after previous node

/-- Every node is the first one of the graph or of a group, or it follows another one. -/
theorem head_or_follows {nodes : List Numbered} {node : Numbered} (h : node ∈ listing nodes) :
    node ∈ nodes.head? ∨
      (∃ parent ∈ listing nodes, node ∈ parent.whenTrue.head? ∨ node ∈ parent.whenFalse.head?) ∨
      ∃ previous, Follows nodes previous node := by
  have place {group : List Numbered} (hgroup : group ∈ groups nodes) (hnode : node ∈ group) :
      node ∈ group.head? ∨ ∃ previous, Follows nodes previous node := by
    rcases eq_head_or_append_of_mem hnode with hhead | ⟨before, previous, after, heq⟩
    · exact .inl hhead
    · exact .inr ⟨previous, group, hgroup, before, after, heq⟩
  rw [← (append_flatMap_children_perm nodes).mem_iff, List.mem_append, List.mem_flatMap] at h
  rcases h with h | ⟨parent, hparent, hchild⟩
  · exact (place List.mem_cons_self h).imp_right .inr
  · rw [← (whenTrue_append_whenFalse_perm parent).mem_iff, List.mem_append] at hchild
    have hgroup {group : List Numbered} (hin : group ∈ [parent.whenTrue, parent.whenFalse]) :
        group ∈ groups nodes :=
      List.mem_cons_of_mem _ (List.mem_flatMap.mpr ⟨parent, hparent, hin⟩)
    rcases hchild with hchild | hchild
    · refine .inr ((place (hgroup (by simp)) hchild).imp_left fun hhead => ?_)
      exact ⟨parent, hparent, .inl hhead⟩
    · refine .inr ((place (hgroup (by simp)) hchild).imp_left fun hhead => ?_)
      exact ⟨parent, hparent, .inr hhead⟩

theorem id_of_mem_head_numberAll {statements : List Statement} {first : Numbered}
    (h : first ∈ (numberAll statements {}).1.head?) : first.id = 0 := by
  cases statements with
  | nil => cases h
  | cons s rest =>
    rw [numberAll_cons] at h
    cases h
    rfl

/-- Leaving aside the edges that lead back to loops, no edge leads to the first node of a graph, one edge leads
to the first node of a group, from the node around it, and to any other node leads one edge for every exit of
the node before it. A block, a return and a loop have one exit, and a conditional as many as the last nodes of
its two branches together, where an empty branch counts as one. -/
theorem entering_numberAll (statements : List Statement) :
    let nodes := (numberAll statements {}).1
    entering nodes 0 = [] ∧
    (∀ parent ∈ listing nodes,
      (∀ first ∈ parent.whenTrue.head?, entering nodes first.id = [edgeTo parent.id .whenTrue first.id]) ∧
      ∀ first ∈ parent.whenFalse.head?, entering nodes first.id = [edgeTo parent.id .whenFalse first.id]) ∧
    (∀ previous node, Follows nodes previous node →
      (entering nodes node.id).Perm ((wire previous).wiring.exits.map (·.edgeTo node.id)) ∧
        (entering nodes node.id).Nodup) ∧
    (∀ node ∈ listing nodes, node.id = 0 ∨
      (∃ parent ∈ listing nodes, node ∈ parent.whenTrue.head? ∨ node ∈ parent.whenFalse.head?) ∨
      ∃ previous, Follows nodes previous node) ∧
    ∀ node ∈ listing nodes,
      (wire node).wiring.exits.length =
        match node.flow with
        | .block | .returning | .loop => 1
        | .conditional => branchExits node.primary + branchExits node.alternate := by
  intro nodes
  have hwf : WellFormed nodes := wellFormed_numberAll statements
  have hord : Ordered nodes := ordered_numberAll statements {}
  have hfirst : ∀ first ∈ nodes.head?, first.id = 0 := fun _ => id_of_mem_head_numberAll
  refine ⟨?_, fun parent hparent => ⟨fun first hhead => ?_, fun first hhead => ?_⟩,
    fun previous node hfollows => ?_, fun node hnode => ?_, fun node _ => length_exits node⟩
  · cases hnodes : nodes with
    | nil => rfl
    | cons first rest =>
      have hmem : (first, []) ∈ allArrivals nodes := by
        refine List.mem_append_left _ (mem_arrivals_head ?_)
        rw [hnodes]
        rfl
      have hperm := entering_perm hwf hord hmem
      rw [hfirst first (by rw [hnodes]; rfl), hnodes] at hperm
      exact List.perm_nil.mp hperm
  · have hmem : (first, [{ node := parent.id, way := .whenTrue }]) ∈ allArrivals nodes := by
      refine List.mem_append_right _ (List.mem_flatMap.mpr ⟨parent, hparent, ?_⟩)
      exact List.mem_append_left _ (mem_arrivals_head hhead)
    exact List.perm_singleton.mp (entering_perm hwf hord hmem)
  · have hmem : (first, [{ node := parent.id, way := .whenFalse }]) ∈ allArrivals nodes := by
      refine List.mem_append_right _ (List.mem_flatMap.mpr ⟨parent, hparent, ?_⟩)
      exact List.mem_append_right _ (mem_arrivals_head hhead)
    exact List.perm_singleton.mp (entering_perm hwf hord hmem)
  · have hperm := entering_perm hwf hord (mem_allArrivals_of_follows hfollows)
    obtain ⟨group, hgroup, before, after, heq⟩ := hfollows
    have hprevious : previous ∈ listing nodes := mem_listing_of_mem_groups hgroup (by simp [heq])
    have hexits := nodup_exits (hwf.of_mem_listing hprevious) (hord.of_mem_listing hprevious)
    exact ⟨hperm, hperm.nodup_iff.mpr (hexits.map (Exit.edgeTo_injective node.id))⟩
  · exact (head_or_follows hnode).imp_left (hfirst node)

/-- A conditional whose alternate is a conditional without a consequent: three exits lead to the block after
them. -/
theorem entering_numberAll_elseIf :
    let nodes :=
      (numberAll [.conditional "a" [.plain "b"] [.conditional "c" [] [.plain "d"]], .plain "e"] {}).1
    entering nodes 2 = [edgeTo 0 .whenFalse 2] ∧
      (entering nodes 4).Perm [edgeTo 1 .straight 4, edgeTo 2 .whenTrue 4, edgeTo 3 .straight 4] := by
  intro nodes
  obtain ⟨-, hgroups, hfollows, -⟩ := entering_numberAll
    [.conditional "a" [.plain "b"] [.conditional "c" [] [.plain "d"]], .plain "e"]
  refine ⟨(hgroups _ List.mem_cons_self).2 _ rfl, ?_⟩
  exact (hfollows _ _ ⟨nodes, List.mem_cons_self, [], [], rfl⟩).1

end FlowPath.Graph
