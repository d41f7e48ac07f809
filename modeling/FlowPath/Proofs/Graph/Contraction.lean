import FlowPath.Proofs.Graph.Merging

/-!
# Edges and exits of merged graphs

Under the map of a merge the edges of a graph fall into two parts. Those inside a run are the straight
edges between its neighbours (`chain`) and go away; all others are the edges of the merged graph, up to
the names of the nodes, and so are the exits. `contracts_of_merges` proves it by induction on the merge:
entries into groups, links between neighbours and edges back to a loop all join nodes that stay apart,
because the numbers of the merged graph are all different.
-/

namespace FlowPath.Graph

variable {p : Nat → Nat}

/-! ## Renaming -/

def Target.rename (p : Nat → Nat) : Target → Target
  | .node id => .node (p id)
  | .terminal => .terminal

def Edge.rename (p : Nat → Nat) (edge : Edge) : Edge :=
  { edge with source := p edge.source, target := edge.target.rename p }

def Exit.rename (p : Nat → Nat) (exit : Exit) : Exit := { exit with node := p exit.node }

/-- The edge leads from a node to another one that is merged with it. -/
def Edge.isInside (p : Nat → Nat) (edge : Edge) : Bool :=
  match edge.target with
  | .node target => edge.source ≠ target && p edge.source = p target
  | .terminal => false

/-- The straight edges between the neighbours of a run. -/
def chain : List Numbered → List Edge
  | first :: next :: rest => edgeTo first.id .straight next.id :: chain (next :: rest)
  | _ => []

/-- The edges without those inside a run are the edges `image` up to names, and `inside` are those
inside. -/
structure Splits (p : Nat → Nat) (edges image inside : List Edge) : Prop where
  image : (edges.filter fun edge => !edge.isInside p).map (Edge.rename p) = image
  inside : edges.filter (Edge.isInside p) = inside

/-- The second wiring is the first one without the edges inside runs, which are `inside`. -/
structure Contracts (p : Nat → Nat) (wiring wiring' : Wiring) (inside : List Edge) : Prop where
  exits : wiring'.exits = wiring.exits.map (Exit.rename p)
  edges : Splits p wiring.edges wiring'.edges inside

theorem Splits.append {edges edges' image image' inside inside' : List Edge}
    (h : Splits p edges image inside) (h' : Splits p edges' image' inside') :
    Splits p (edges ++ edges') (image ++ image') (inside ++ inside') := by
  obtain ⟨rfl, rfl⟩ := h
  obtain ⟨rfl, rfl⟩ := h'
  exact ⟨by simp, by simp⟩

theorem splits_outside {edges : List Edge} (h : ∀ edge ∈ edges, edge.isInside p = false) :
    Splits p edges (edges.map (Edge.rename p)) [] := by
  refine ⟨?_, List.filter_eq_nil_iff.mpr fun edge hedge => by simp [h edge hedge]⟩
  rw [List.filter_eq_self.mpr fun edge hedge => by simp [h edge hedge]]

theorem splits_inside {edges : List Edge} (h : ∀ edge ∈ edges, edge.isInside p = true) :
    Splits p edges [] edges := by
  refine ⟨?_, List.filter_eq_self.mpr h⟩
  rw [List.filter_eq_nil_iff.mpr fun edge hedge => by simp [h edge hedge], List.map_nil]

theorem isInside_edgeTo {source target : Nat} {way : Way} (h : p source ≠ p target) :
    (edgeTo source way target).isInside p = false := by
  simp [Edge.isInside, edgeTo, h]

/-! ## Runs -/

theorem wiringOf_block {block : Numbered} (h : block.flow = .block) (rest : List Numbered) :
    wiringOf (block :: rest) =
      { exits := (branchOf block.id .straight rest).exits
        edges := entryOf block.id .straight rest ++ (wiringOf rest).edges } := by
  cases rest with
  | nil => simp [wire_block h]
  | cons next rest => simp [wire_block h, Exit.edgeTo]

/-- The wiring of a run of blocks and what follows it: control goes straight through the run and leaves
it at its last block. -/
theorem wiringOf_run {first : Numbered} {others : List Numbered} (rest : List Numbered)
    (h : ∀ node ∈ first :: others, node.flow = .block) :
    ∃ last ∈ first :: others, wiringOf (first :: others ++ rest) =
      { exits := (branchOf last.id .straight rest).exits
        edges := chain (first :: others) ++ (entryOf last.id .straight rest ++ (wiringOf rest).edges) } := by
  induction others generalizing first with
  | nil =>
    exact ⟨first, List.mem_cons_self, wiringOf_block (h first List.mem_cons_self) rest⟩
  | cons next others ih =>
    rw [List.forall_mem_cons] at h
    obtain ⟨last, hlast, hwiring⟩ := ih h.2
    refine ⟨last, List.mem_cons_of_mem _ hlast, ?_⟩
    rw [List.cons_append, List.cons_append, wiringOf_cons_cons, ← List.cons_append, hwiring,
      wire_block h.1]
    simp [chain, Exit.edgeTo]

theorem isInside_of_mem_chain {run : List Numbered} {image : Nat} (hids : (run.map (·.id)).Nodup)
    (hp : ∀ node ∈ run, p node.id = image) : ∀ edge ∈ chain run, edge.isInside p = true := by
  induction run with
  | nil => exact fun _ h => absurd h List.not_mem_nil
  | cons first rest ih =>
    cases rest with
    | nil => exact fun _ h => absurd h List.not_mem_nil
    | cons next rest =>
      rw [List.map_cons, List.nodup_cons] at hids
      rw [List.forall_mem_cons] at hp
      refine List.forall_mem_cons.mpr ⟨?_, ih hids.2 hp.2⟩
      have hne : first.id ≠ next.id := fun h => hids.1 (h ▸ List.mem_cons_self)
      simp [Edge.isInside, edgeTo, hne, hp.1, hp.2 next List.mem_cons_self]

/-! ## Merges -/

/-- The map goes by the table. -/
def GoesBy (p : Nat → Nat) (table : List (List Numbered × Numbered)) : Prop :=
  ∀ line ∈ table, ∀ node ∈ line.1, p node.id = line.2.id

variable {nodes nodes' : List Numbered} {table : List (List Numbered × Numbered)}

theorem image_mem_ids (h : Merges nodes nodes' table) (hp : GoesBy p table) {id : Nat}
    (hid : id ∈ ids nodes) : p id ∈ ids nodes' := by
  obtain ⟨node, hnode, rfl⟩ := mem_ids.mp hid
  obtain ⟨line, hline, hin⟩ := List.mem_flatMap.mp (h.listing_perm.mem_iff.mpr hnode)
  rw [hp line hline node hin]
  exact mem_ids.mpr ⟨line.2, h.listing_perm'.mem_iff.mp (List.mem_map_of_mem hline), rfl⟩

/-- Merged sequences are empty together, and their first nodes go together. -/
theorem Merges.heads (h : Merges nodes nodes' table) (hp : GoesBy p table) :
    (nodes = [] ∧ nodes' = []) ∨ ∃ first rest first' rest', nodes = first :: rest ∧
      nodes' = first' :: rest' ∧ p first.id = first'.id := by
  cases h with
  | nil => exact .inl ⟨rfl, rfl⟩
  | run => exact .inr ⟨_, _, _, _, rfl, rfl, hp _ List.mem_cons_self _ List.mem_cons_self⟩
  | single => exact .inr ⟨_, _, _, _, rfl, rfl, hp _ List.mem_cons_self _ List.mem_cons_self⟩

/-- Where a node goes into a group: its edge there stays, since the node stays apart from the group. -/
theorem splits_entryOf (h : Merges nodes nodes' table) (hp : GoesBy p table) {id : Nat}
    (hid : p id ∉ ids nodes') (way : Way) :
    Splits p (entryOf id way nodes) (entryOf (p id) way nodes') [] := by
  rcases h.heads hp with ⟨rfl, rfl⟩ | ⟨first, rest, first', rest', rfl, rfl, hfirst⟩
  · exact splits_outside fun _ h => absurd h List.not_mem_nil
  · rw [entryOf_cons, entryOf_cons, ← hfirst]
    have hapart : p id ≠ p first.id := fun heq => hid (by simp [heq, hfirst])
    exact splits_outside (by simpa using isInside_edgeTo hapart)

theorem exits_branchOf (h : Merges nodes nodes' table) (hp : GoesBy p table)
    (hexits : (wiringOf nodes').exits = (wiringOf nodes).exits.map (Exit.rename p)) (id : Nat) (way : Way) :
    (branchOf (p id) way nodes').exits = (branchOf id way nodes).exits.map (Exit.rename p) := by
  rcases h.heads hp with ⟨rfl, rfl⟩ | ⟨first, rest, first', rest', rfl, rfl, -⟩
  · rfl
  · exact hexits

/-- Edges that lead from exits on to a node, or back to a loop, and that stay. -/
theorem splits_map_exits {exits : List Exit} {leave leave' : Exit → Edge}
    (houtside : ∀ exit ∈ exits, (leave exit).isInside p = false)
    (hrename : ∀ exit, (leave exit).rename p = leave' (exit.rename p)) :
    Splits p (exits.map leave) ((exits.map (Exit.rename p)).map leave') [] := by
  have h := splits_outside (List.forall_mem_map.mpr houtside)
  simpa only [List.map_map, Function.comp_def, hrename] using h

/-- The edges from a group back to its loop stay. -/
theorem splits_back (hwf : WellFormed nodes) (h : Merges nodes nodes' table) (hp : GoesBy p table)
    {id : Nat} (hid : p id ∉ ids nodes') {way : Way}
    (hexits : (branchOf (p id) way nodes').exits = (branchOf id way nodes).exits.map (Exit.rename p)) :
    Splits p ((branchOf id way nodes).exits.map (·.backTo id))
      ((branchOf (p id) way nodes').exits.map (·.backTo (p id))) [] := by
  rw [hexits]
  refine splits_map_exits (fun exit hexit => ?_) fun exit => rfl
  rcases node_of_mem_branchOf_exits (node_mem_ids_of_mem_exits hwf) hexit with hin | ⟨-, rfl⟩
  · have hapart : p exit.node ≠ p id := fun heq => hid (heq ▸ image_mem_ids h hp hin)
    simp [Edge.isInside, Exit.backTo, hapart]
  -- A loop without a body leads back to itself, and that edge joins nothing.
  · simp [Edge.isInside, Exit.backTo]

section Node

variable {node node' : Numbered} {onTrue onFalse : List (List Numbered × Numbered)}

/-- A node that stays alone, with what is below it. -/
theorem contracts_wire (flow : node'.flow = node.flow) (alone : node.flow ≠ .block)
    (hwf : WellFormed [node]) (hid : p node.id = node'.id) (hids' : (ids [node']).Nodup)
    (hTrue : Merges node.whenTrue node'.whenTrue onTrue) (hpTrue : GoesBy p onTrue)
    (hFalse : Merges node.whenFalse node'.whenFalse onFalse) (hpFalse : GoesBy p onFalse)
    (ihTrue : Contracts p (wiringOf node.whenTrue) (wiringOf node'.whenTrue)
      (onTrue.flatMap fun line => chain line.1))
    (ihFalse : Contracts p (wiringOf node.whenFalse) (wiringOf node'.whenFalse)
      (onFalse.flatMap fun line => chain line.1)) :
    Contracts p (wire node).wiring (wire node').wiring
      ((onTrue ++ onFalse).flatMap fun line => chain line.1) := by
  rw [ids_cons, ids_nil, List.append_nil, List.nodup_cons] at hids'
  have hapartTrue : p node.id ∉ ids node'.whenTrue := fun h =>
    hids'.1 (hid ▸ (ids_sublist (whenTrue_sublist node')).subset h)
  have hapartFalse : p node.id ∉ ids node'.whenFalse := fun h =>
    hids'.1 (hid ▸ (ids_sublist (whenFalse_sublist node')).subset h)
  have entryTrue := splits_entryOf hTrue hpTrue hapartTrue .whenTrue
  have entryFalse := splits_entryOf hFalse hpFalse hapartFalse .whenFalse
  have exitsTrue := exits_branchOf hTrue hpTrue ihTrue.exits node.id .whenTrue
  have exitsFalse := exits_branchOf hFalse hpFalse ihFalse.exits node.id .whenFalse
  rw [hid] at entryTrue entryFalse exitsTrue exitsFalse
  rw [List.flatMap_append]
  cases hflow : node.flow with
  | block => exact absurd hflow alone
  | returning =>
    have hleaf : node.children = [] := (wellFormed_cons.mp hwf).1 (.inr hflow)
    have htrue : node.whenTrue = [] := List.sublist_nil.mp (hleaf ▸ whenTrue_sublist node)
    have hfalse : node.whenFalse = [] := List.sublist_nil.mp (hleaf ▸ whenFalse_sublist node)
    rw [← ihTrue.edges.inside, ← ihFalse.edges.inside, htrue, hfalse, wire_returning hflow,
      wire_returning (flow.trans hflow), ← hid]
    exact ⟨rfl, rfl, rfl⟩
  | conditional =>
    have hbranch : node.flow ≠ .loop := by rw [hflow]; decide
    have hbranch' : node'.flow ≠ .loop := flow ▸ hbranch
    rw [wire_conditional hflow, wire_conditional (flow.trans hflow), ← whenTrue_of_not_loop hbranch,
      ← whenTrue_of_not_loop hbranch', ← whenFalse_of_not_loop hbranch, ← whenFalse_of_not_loop hbranch']
    simp only [branchOf_edges]
    refine ⟨by rw [List.map_append, exitsTrue, exitsFalse], ?_⟩
    exact ((entryTrue.append entryFalse).append ihTrue.edges).append ihFalse.edges
  | loop =>
    have hflow' : node'.flow = .loop := flow.trans hflow
    have hinside : WellFormed node.whenTrue :=
      (wellFormed_cons.mp hwf).2.1.of_subset fun _ => mem_children_of_mem_whenTrue
    have hback := splits_back hinside hTrue hpTrue hapartTrue (hid.symm ▸ exitsTrue)
    rw [hid] at hback
    rw [wire_loop hflow, wire_loop hflow', ← whenTrue_of_loop hflow, ← whenTrue_of_loop hflow',
      ← ihFalse.edges.inside, whenFalse_of_loop hflow]
    simp only [branchOf_edges]
    refine ⟨by rw [← hid]; rfl, ?_⟩
    exact (entryTrue.append ihTrue.edges).append hback

/-- A node and what follows it. -/
theorem contracts_cons {rest rest' : List Numbered} {inside inside' : List Edge}
    (hnode : Contracts p (wire node).wiring (wire node').wiring inside)
    (hmap : ∀ exit ∈ (wire node).wiring.exits, p exit.node ∉ ids rest') (h : Merges rest rest' table)
    (hp : GoesBy p table) (hrest : Contracts p (wiringOf rest) (wiringOf rest') inside') :
    Contracts p (wiringOf (node :: rest)) (wiringOf (node' :: rest')) (inside ++ inside') := by
  rcases h.heads hp with ⟨rfl, rfl⟩ | ⟨next, others, next', others', rfl, rfl, hnext⟩
  · obtain rfl : [] = inside' := hrest.edges.inside
    rw [List.append_nil]
    exact hnode
  · rw [wiringOf_cons_cons, wiringOf_cons_cons]
    refine ⟨hrest.exits, ?_⟩
    have hlinks : Splits p ((wire node).wiring.exits.map (·.edgeTo next.id))
        ((wire node').wiring.exits.map (·.edgeTo next'.id)) [] := by
      rw [hnode.exits]
      refine splits_map_exits (fun exit hexit => ?_) fun exit => ?_
      · refine isInside_edgeTo fun heq => hmap exit hexit ?_
        simp [heq, hnext]
      · simp [Edge.rename, Target.rename, Exit.edgeTo, edgeTo, Exit.rename, hnext]
    have hall := (hnode.edges.append hlinks).append hrest.edges
    rwa [List.append_nil] at hall

end Node

theorem contracts_of_merges (h : Merges nodes nodes' table) (hp : GoesBy p table)
    (hwf : WellFormed nodes) (hids : (ids nodes).Nodup) (hids' : (ids nodes').Nodup) :
    Contracts p (wiringOf nodes) (wiringOf nodes') (table.flatMap fun line => chain line.1) := by
  induction h with
  | nil => exact ⟨rfl, rfl, rfl⟩
  | @run first merged others rest rest' table blocks _ block leaf tail ih =>
    obtain ⟨hline, htable⟩ := List.forall_mem_cons.mp hp
    rw [ids_append, List.nodup_append] at hids
    rw [ids_cons, leaf, ids_nil, List.nil_append, List.nodup_cons] at hids'
    have hrest : WellFormed rest := hwf.of_subset fun _ => List.mem_append_right _
    obtain ⟨hexits, hedges⟩ := ih htable hrest hids.2.1 hids'.2
    obtain ⟨last, hlast, hwiring⟩ := wiringOf_run rest fun node hn => (blocks node hn).1
    have hlast : p last.id = merged.id := hline last hlast
    have hleaves : ids (first :: others) = (first :: others).map (·.id) :=
      congrArg (List.map _) (listing_of_leaves fun node hn => (blocks node hn).2)
    rw [hwiring, wiringOf_block block, ← hlast]
    refine ⟨exits_branchOf tail htable hexits last.id .straight, ?_⟩
    have hchain := splits_inside (isInside_of_mem_chain (hleaves ▸ hids.1) hline)
    exact hchain.append ((splits_entryOf tail htable (hlast ▸ hids'.1) .straight).append hedges)
  | @single node node' rest rest' t₁ t₂ table flow alone onTrue onFalse tail ihTrue ihFalse ihTail =>
    obtain ⟨hline, hbelow⟩ := List.forall_mem_cons.mp hp
    have hid : p node.id = node'.id := hline node List.mem_cons_self
    obtain ⟨hpInside, hpTail⟩ := List.forall_mem_append.mp hbelow
    obtain ⟨hpTrue, hpFalse⟩ := List.forall_mem_append.mp hpInside
    obtain ⟨-, hwfInside, hwfRest⟩ := wellFormed_cons.mp hwf
    have hwfNode : WellFormed [node] := hwf.of_subset (by simp)
    have hinside : (ids node.children).Nodup := hids.sublist (by simp [ids_cons])
    have hinside' : (ids node'.children).Nodup := hids'.sublist (by simp [ids_cons])
    have hone : Merges [node] [node'] (([node], node') :: (t₁ ++ t₂ ++ [])) :=
      .single flow alone onTrue onFalse .nil
    have hpOne : GoesBy p (([node], node') :: (t₁ ++ t₂ ++ [])) :=
      List.forall_mem_cons.mpr ⟨hline, by rwa [List.append_nil]⟩
    rw [← List.singleton_append, ids_append, List.nodup_append] at hids'
    have hnode := contracts_wire flow alone hwfNode hid hids'.1 onTrue hpTrue onFalse hpFalse
      (ihTrue hpTrue (hwfInside.of_subset fun _ => mem_children_of_mem_whenTrue)
        (hinside.sublist (ids_sublist (whenTrue_sublist node)))
        (hinside'.sublist (ids_sublist (whenTrue_sublist node'))))
      (ihFalse hpFalse (hwfInside.of_subset fun _ => mem_children_of_mem_whenFalse)
        (hinside.sublist (ids_sublist (whenFalse_sublist node)))
        (hinside'.sublist (ids_sublist (whenFalse_sublist node'))))
    have hrest := ihTail hpTail hwfRest (hids.sublist (ids_sublist (List.sublist_cons_self _ _))) hids'.2.1
    have hapart : ∀ exit ∈ (wire node).wiring.exits, p exit.node ∉ ids rest' := fun exit hexit hin =>
      hids'.2.2 _ (image_mem_ids hone hpOne (node_mem_ids_of_mem_exits hwfNode exit hexit)) _ hin rfl
    have hall := contracts_cons hnode hapart tail hpTail hrest
    rwa [← List.flatMap_append] at hall

theorem source_of_mem_chain {run : List Numbered} {edge : Edge} (h : edge ∈ chain run) :
    ∃ node ∈ run, edge.source = node.id := by
  induction run with
  | nil => exact absurd h List.not_mem_nil
  | cons first rest ih =>
    cases rest with
    | nil => exact absurd h List.not_mem_nil
    | cons next rest =>
      rcases List.mem_cons.mp h with rfl | h
      · exact ⟨first, List.mem_cons_self, rfl⟩
      · obtain ⟨node, hnode, hsource⟩ := ih h
        exact ⟨node, List.mem_cons_of_mem _ hnode, hsource⟩

/-- The edges inside a run, for every line of the table. -/
theorem filter_isInside_eq_chain (h : Merges nodes nodes' table) (hp : GoesBy p table)
    (hwf : WellFormed nodes) (hids : (ids nodes).Nodup) (hids' : (ids nodes').Nodup)
    {line : List Numbered × Numbered} (hline : line ∈ table) :
    (wiringOf nodes).edges.filter (fun edge => edge.isInside p && p edge.source = line.2.id) =
      chain line.1 := by
  have hinside := (contracts_of_merges h hp hwf hids hids').edges.inside
  have hsource : ∀ line ∈ table, ∀ edge ∈ chain line.1, p edge.source = line.2.id := by
    intro line hline edge hedge
    obtain ⟨node, hnode, hsource⟩ := source_of_mem_chain hedge
    rw [hsource, hp line hline node hnode]
  have hone := filter_flatMap_eq hsource (h.nodup_targets hids') hline
  rw [← hinside, List.filter_filter] at hone
  rw [← hone]
  exact List.filter_congr fun edge _ => Bool.and_comm _ _

end FlowPath.Graph
