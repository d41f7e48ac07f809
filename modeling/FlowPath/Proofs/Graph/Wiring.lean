import FlowPath.Proofs.Graph.Numbering

/-!
# Edges and exits, part by part

The wiring of numbered trees in terms of their groups: the sequence itself, the two branches of every
conditional and the body of every loop. `wiring_induction` proves a property of all wirings from one
case for every kind of node and one for a sequence. Every exit is a node of the trees
(`node_mem_ids_of_mem_exits`), and the edges are those between neighbours of the sequence together
with what every single node adds (`edges_perm`).
-/

namespace FlowPath.Graph

/-- Only conditionals and loops have children. -/
def WellFormed (nodes : List Numbered) : Prop :=
  ∀ node ∈ listing nodes, node.flow = .block ∨ node.flow = .returning → node.children = []

theorem wellFormed_of_mirrors {known : Nat → Statement → Prop} {nodes : List Numbered}
    {statements : List Statement} (h : List.Forall₂ (Mirrors known) nodes statements) :
    WellFormed nodes := by
  intro node hnode hflow
  obtain ⟨s, -, -, flow, -, inside⟩ := exists_shown_of_mem_listing h hnode
  have hs : s.shownChildren = [] := by
    rw [flow] at hflow
    unfold Statement.shownChildren
    cases hk : s.kind <;> simp [hk, FlowClass.ofKind, Statement.Kind.isBranching] at hflow ⊢
  rw [hs] at inside
  exact List.forall₂_nil_right_iff.mp inside

theorem wellFormed_numberAll (statements : List Statement) : WellFormed (numberAll statements {}).1 :=
  wellFormed_of_mirrors (mirrors_numberAll_empty statements)

theorem wellFormed_cons {node : Numbered} {rest : List Numbered} :
    WellFormed (node :: rest) ↔
      (node.flow = .block ∨ node.flow = .returning → node.children = []) ∧
        WellFormed node.children ∧ WellFormed rest := by
  simp only [WellFormed, listing_cons, List.forall_mem_cons, List.forall_mem_append]

theorem WellFormed.of_subset {nodes part : List Numbered} (h : WellFormed nodes)
    (hpart : ∀ node ∈ part, node ∈ nodes) : WellFormed part := by
  intro node hnode
  obtain ⟨n, hn, hin⟩ := mem_listing.mp hnode
  exact h node (mem_listing.mpr ⟨n, hpart n hn, hin⟩)

/-! ## Groups -/

/-- The children of a conditional that run if it holds. -/
def Numbered.primary (node : Numbered) : List Numbered :=
  node.children.filter fun child => child.role ≠ some .alternate

/-- The children of a conditional that run if it does not hold. -/
def Numbered.alternate (node : Numbered) : List Numbered :=
  node.children.filter fun child => child.role = some .alternate

theorem primary_append_alternate_perm (node : Numbered) :
    (node.primary ++ node.alternate).Perm node.children := by
  have h := List.filter_append_perm (fun child : Numbered => child.role = some .alternate) node.children
  simp only [← decide_not] at h
  exact List.perm_append_comm.trans h

theorem wireAll_eq_map (nodes : List Numbered) : wireAll nodes = nodes.map wire := by
  induction nodes with
  | nil => rfl
  | cons node rest ih => rw [wireAll, ih]; rfl

@[simp] theorem wire_id (node : Numbered) : (wire node).id = node.id := by cases node; rfl

@[simp] theorem wire_role (node : Numbered) : (wire node).role = node.role := by cases node; rfl

theorem filter_wireAll (p : Option Statement.Role → Bool) (nodes : List Numbered) :
    (wireAll nodes).filter (fun wired => p wired.role) =
      wireAll (nodes.filter fun node => p node.role) := by
  simp only [wireAll_eq_map, List.filter_map, Function.comp_def, wire_role]

/-- The wiring of a group that a node branches into. -/
def branchOf (id : Nat) (way : Way) (group : List Numbered) : Wiring :=
  wireBranch id way (wireAll group)

/-- The edge into a group that a node branches into. -/
def entryOf (id : Nat) (way : Way) (group : List Numbered) : List Edge :=
  entryEdge id way (wireAll group)

@[simp] theorem branchOf_nil (id : Nat) (way : Way) :
    branchOf id way [] = { exits := [{ node := id, way }] } := rfl

@[simp] theorem branchOf_cons (id : Nat) (way : Way) (node : Numbered) (rest : List Numbered) :
    branchOf id way (node :: rest) = wiringOf (node :: rest) := rfl

@[simp] theorem entryOf_nil (id : Nat) (way : Way) : entryOf id way [] = [] := rfl

@[simp] theorem entryOf_cons (id : Nat) (way : Way) (node : Numbered) (rest : List Numbered) :
    entryOf id way (node :: rest) = [edgeTo id way node.id] := by
  rw [entryOf, wireAll, entryEdge, wire_id]

/-! ## The wiring of a node and of a sequence -/

theorem wire_block {node : Numbered} (h : node.flow = .block) :
    (wire node).wiring = { exits := [{ node := node.id, way := .straight }] } := by
  obtain ⟨id, flow, role, children⟩ := node
  cases h; rfl

theorem wire_returning {node : Numbered} (h : node.flow = .returning) :
    (wire node).wiring =
      { exits := [{ node := node.id, way := .straight }]
        edges := [{ source := node.id, target := .terminal, label := none }] } := by
  obtain ⟨id, flow, role, children⟩ := node
  cases h; rfl

theorem wire_conditional {node : Numbered} (h : node.flow = .conditional) :
    (wire node).wiring =
      { exits :=
          (branchOf node.id .whenTrue node.primary).exits ++
            (branchOf node.id .whenFalse node.alternate).exits
        edges :=
          entryOf node.id .whenTrue node.primary ++ entryOf node.id .whenFalse node.alternate ++
            (branchOf node.id .whenTrue node.primary).edges ++
              (branchOf node.id .whenFalse node.alternate).edges } := by
  obtain ⟨id, flow, role, children⟩ := node
  cases h
  simp only [branchOf, entryOf, Numbered.primary, Numbered.alternate,
    ← filter_wireAll fun role => decide (role ≠ some .alternate),
    ← filter_wireAll fun role => decide (role = some .alternate)]
  rfl

theorem wire_loop {node : Numbered} (h : node.flow = .loop) :
    (wire node).wiring =
      { exits := [{ node := node.id, way := .whenFalse }]
        edges :=
          entryOf node.id .whenTrue node.children ++
            (branchOf node.id .whenTrue node.children).edges ++
              (branchOf node.id .whenTrue node.children).exits.map (·.backTo node.id) } := by
  obtain ⟨id, flow, role, children⟩ := node
  cases h; rfl

@[simp] theorem wiringOf_nil : wiringOf [] = {} := rfl

@[simp] theorem wiringOf_singleton (node : Numbered) : wiringOf [node] = (wire node).wiring := rfl

@[simp] theorem wiringOf_cons_cons (first next : Numbered) (rest : List Numbered) :
    wiringOf (first :: next :: rest) =
      { exits := (wiringOf (next :: rest)).exits
        edges :=
          (wire first).wiring.edges ++ (wire first).wiring.exits.map (·.edgeTo next.id) ++
            (wiringOf (next :: rest)).edges } := by
  simp only [wiringOf, wireAll, wireSequence, wire_id]

/-- Induction over wirings: `one` is about the wiring of a node, `all` about that of a sequence. -/
theorem wiring_induction (one : Numbered → Prop) (all : List Numbered → Prop)
    (block : ∀ node, node.flow = .block → node.children = [] → one node)
    (returning : ∀ node, node.flow = .returning → node.children = [] → one node)
    (conditional : ∀ node, node.flow = .conditional → all node.primary → all node.alternate → one node)
    (loop : ∀ node, node.flow = .loop → all node.children → one node)
    (nil : all []) (cons : ∀ node rest, one node → all rest → all (node :: rest))
    {nodes : List Numbered} (h : WellFormed nodes) : all nodes := by
  have sequence : ∀ nodes : List Numbered, (∀ node ∈ nodes, one node) → all nodes := by
    intro nodes h
    induction nodes with
    | nil => exact nil
    | cons node rest ih =>
      rw [List.forall_mem_cons] at h
      exact cons node rest h.1 (ih h.2)
  have single : ∀ node : Numbered, WellFormed [node] → one node := by
    intro node h
    induction node with
    | node id flow role children ih =>
      obtain ⟨hleaf, hchildren, -⟩ := wellFormed_cons.mp h
      have inside : ∀ child ∈ children, one child := fun child hc =>
        ih child hc (hchildren.of_subset (by simpa using hc))
      cases flow with
      | block => exact block _ rfl (hleaf (.inl rfl))
      | returning => exact returning _ rfl (hleaf (.inr rfl))
      | conditional =>
        exact conditional _ rfl (sequence _ fun c hc => inside c (List.mem_of_mem_filter hc))
          (sequence _ fun c hc => inside c (List.mem_of_mem_filter hc))
      | loop => exact loop _ rfl (sequence _ inside)
  exact sequence nodes fun node hn => single node (h.of_subset (by simpa using hn))

/-! ## Exits -/

theorem ids_subset_of_subset {part nodes : List Numbered} (h : ∀ node ∈ part, node ∈ nodes) :
    ∀ id ∈ ids part, id ∈ ids nodes := by
  intro id hid
  obtain ⟨node, hnode, rfl⟩ := mem_ids.mp hid
  obtain ⟨n, hn, hin⟩ := mem_listing.mp hnode
  exact mem_ids.mpr ⟨node, mem_listing.mpr ⟨n, h n hn, hin⟩, rfl⟩

theorem ids_primary_subset {node : Numbered} {id : Nat} (h : id ∈ ids node.primary) :
    id ∈ ids node.children :=
  ids_subset_of_subset (fun _ hn => List.mem_of_mem_filter hn) id h

theorem ids_alternate_subset {node : Numbered} {id : Nat} (h : id ∈ ids node.alternate) :
    id ∈ ids node.children :=
  ids_subset_of_subset (fun _ hn => List.mem_of_mem_filter hn) id h

/-- Every exit of a branch is in its group, or it is the node itself if the group is empty. -/
theorem node_of_mem_branchOf_exits {id : Nat} {way : Way} {group : List Numbered}
    (h : ∀ exit ∈ (wiringOf group).exits, exit.node ∈ ids group) {exit : Exit}
    (hexit : exit ∈ (branchOf id way group).exits) :
    exit.node ∈ ids group ∨ (group = [] ∧ exit = { node := id, way }) := by
  cases group with
  | nil => exact .inr ⟨rfl, List.mem_singleton.mp hexit⟩
  | cons node rest => exact .inl (h exit hexit)

/-- The exits of a sequence are nodes of it. -/
theorem node_mem_ids_of_mem_exits {nodes : List Numbered} (hwf : WellFormed nodes) :
    ∀ exit ∈ (wiringOf nodes).exits, exit.node ∈ ids nodes := by
  refine wiring_induction (fun node => ∀ exit ∈ (wire node).wiring.exits, exit.node ∈ ids [node])
    (fun nodes => ∀ exit ∈ (wiringOf nodes).exits, exit.node ∈ ids nodes) ?_ ?_ ?_ ?_ ?_ ?_ hwf
  · intro node h _ exit hexit
    rw [wire_block h] at hexit
    simp [List.mem_singleton.mp hexit]
  · intro node h _ exit hexit
    rw [wire_returning h] at hexit
    simp [List.mem_singleton.mp hexit]
  · intro node h hprimary halternate exit hexit
    rw [wire_conditional h] at hexit
    rw [ids_cons, ids_nil, List.append_nil, List.mem_cons]
    rcases List.mem_append.mp hexit with hexit | hexit
    · rcases node_of_mem_branchOf_exits hprimary hexit with hin | ⟨-, rfl⟩
      · exact .inr (ids_primary_subset hin)
      · exact .inl rfl
    · rcases node_of_mem_branchOf_exits halternate hexit with hin | ⟨-, rfl⟩
      · exact .inr (ids_alternate_subset hin)
      · exact .inl rfl
  · intro node h _ exit hexit
    rw [wire_loop h] at hexit
    simp [List.mem_singleton.mp hexit]
  · simp
  · intro node rest hnode hrest exit hexit
    cases rest with
    | nil => exact hnode exit hexit
    | cons next rest =>
      rw [wiringOf_cons_cons] at hexit
      rw [ids_cons]
      exact List.mem_cons_of_mem _ (List.mem_append_right _ (hrest exit hexit))

/-! ## Edges -/

/-- The edges between the neighbours of a sequence. -/
def links : List Numbered → List Edge
  | first :: next :: rest => (wire first).wiring.exits.map (·.edgeTo next.id) ++ links (next :: rest)
  | _ => []

/-- The edges that a node adds: into its groups, between their members, and back to a loop or to the
terminal. -/
def ownEdges (node : Numbered) : List Edge :=
  match node.flow with
  | .block => []
  | .returning => [{ source := node.id, target := .terminal, label := none }]
  | .conditional =>
    entryOf node.id .whenTrue node.primary ++ entryOf node.id .whenFalse node.alternate ++
      (links node.primary ++ links node.alternate)
  | .loop =>
    entryOf node.id .whenTrue node.children ++ links node.children ++
      (branchOf node.id .whenTrue node.children).exits.map (·.backTo node.id)

theorem branchOf_edges (id : Nat) (way : Way) (group : List Numbered) :
    (branchOf id way group).edges = (wiringOf group).edges := by
  cases group <;> rfl

theorem listing_perm {xs ys : List Numbered} (h : xs.Perm ys) : (listing xs).Perm (listing ys) := by
  induction h with
  | nil => exact .refl _
  | cons x _ ih => simpa only [listing_cons] using (ih.append_left _).cons x
  | swap x y l =>
    have h : ∀ a b, listing (a :: b :: l) = listing [a] ++ listing [b] ++ listing l :=
      fun a b => by simp
    rw [h x y, h y x]
    exact List.perm_append_comm.append_right _
  | trans _ _ ih₁ ih₂ => exact ih₁.trans ih₂

/-- What belongs to the nodes below a node belongs to those of its two branches. -/
theorem flatMap_listing_perm {β : Type} (node : Numbered) (f : Numbered → List β) :
    ((listing node.primary).flatMap f ++ (listing node.alternate).flatMap f).Perm
      ((listing node.children).flatMap f) := by
  rw [← List.flatMap_append, ← listing_append]
  exact (listing_perm (primary_append_alternate_perm node)).flatMap_right f

theorem listing_sublist {part nodes : List Numbered} (h : part.Sublist nodes) :
    (listing part).Sublist (listing nodes) := by
  induction h with
  | slnil => exact .slnil
  | cons n _ ih =>
    rw [listing_cons]
    exact (ih.trans (List.sublist_append_right _ _)).cons _
  | cons_cons n _ ih =>
    rw [listing_cons, listing_cons]
    exact (ih.append_left _).cons_cons _

/-- The edges of a sequence are those between its neighbours and what its nodes add. -/
theorem edges_perm {nodes : List Numbered} (hwf : WellFormed nodes) :
    (wiringOf nodes).edges.Perm (links nodes ++ (listing nodes).flatMap ownEdges) := by
  refine wiring_induction
    (fun node => (wire node).wiring.edges.Perm ((listing [node]).flatMap ownEdges))
    (fun nodes => (wiringOf nodes).edges.Perm (links nodes ++ (listing nodes).flatMap ownEdges))
    ?_ ?_ ?_ ?_ ?_ ?_ hwf
  · intro node h hleaf
    rw [wire_block h]
    simp [ownEdges, h, hleaf]
  · intro node h hleaf
    rw [wire_returning h]
    simp [ownEdges, h, hleaf]
  · intro node h hprimary halternate
    have hparts := flatMap_listing_perm node ownEdges
    rw [wire_conditional h]
    simp only [branchOf_edges, listing_cons, listing_nil, List.append_nil, List.flatMap_cons, ownEdges, h]
    refine List.perm_iff_count.mpr fun e => ?_
    have h₁ := hprimary.count_eq e
    have h₂ := halternate.count_eq e
    have h₃ := hparts.count_eq e
    simp only [List.count_append] at h₁ h₂ h₃ ⊢
    omega
  · intro node h hchildren
    rw [wire_loop h]
    simp only [branchOf_edges, listing_cons, listing_nil, List.append_nil, List.flatMap_cons, ownEdges, h]
    refine List.perm_iff_count.mpr fun e => ?_
    have h₁ := hchildren.count_eq e
    simp only [List.count_append] at h₁ ⊢
    omega
  · simp [links]
  · intro node rest hnode hrest
    cases rest with
    | nil => simpa [links] using hnode
    | cons next rest =>
      rw [wiringOf_cons_cons, listing_cons node, links]
      refine List.perm_iff_count.mpr fun e => ?_
      have h₁ := hnode.count_eq e
      have h₂ := hrest.count_eq e
      simp only [listing_cons node, listing_nil, List.append_nil, List.flatMap_cons,
        List.flatMap_append, List.count_append] at h₁ h₂ ⊢
      omega

/-! ## The order of the numbers -/

/-- The numbers grow in the order of the text. -/
def Ordered (nodes : List Numbered) : Prop := (ids nodes).Pairwise (· < ·)

theorem ordered_numberAll (statements : List Statement) (draft : Draft) :
    Ordered (numberAll statements draft).1 := by
  rw [Ordered, ids_numberAll]
  exact List.pairwise_lt_range'

theorem ids_sublist {part nodes : List Numbered} (h : part.Sublist nodes) :
    (ids part).Sublist (ids nodes) := (listing_sublist h).map _

theorem Ordered.of_sublist {part nodes : List Numbered} (h : Ordered nodes)
    (hpart : part.Sublist nodes) : Ordered part := List.Pairwise.sublist (ids_sublist hpart) h

theorem ordered_cons {node : Numbered} {rest : List Numbered} :
    Ordered (node :: rest) ↔
      (∀ id ∈ ids node.children, node.id < id) ∧ (∀ id ∈ ids rest, node.id < id) ∧
        Ordered node.children ∧ Ordered rest ∧ ∀ a ∈ ids node.children, ∀ b ∈ ids rest, a < b := by
  simp only [Ordered, ids_cons, List.pairwise_cons, List.pairwise_append, List.forall_mem_append,
    and_assoc]

theorem Ordered.of_mem_listing {nodes : List Numbered} (h : Ordered nodes) {node : Numbered}
    (hnode : node ∈ listing nodes) : Ordered [node] :=
  List.Pairwise.sublist ((listing_sublist_of_mem hnode).map _) h

theorem WellFormed.of_mem_listing {nodes : List Numbered} (h : WellFormed nodes) {node : Numbered}
    (hnode : node ∈ listing nodes) : WellFormed [node] :=
  fun n hn => h n ((listing_sublist_of_mem hnode).subset hn)

/-- What an edge of a graph can be. -/
inductive EdgeCases (nodes : List Numbered) (edge : Edge) : Prop where
  /-- It leads to a node further on in the text. -/
  | forward {source target : Nat} {way : Way} (hsource : source ∈ ids nodes)
      (htarget : target ∈ ids nodes) (hlt : source < target) (eq : edge = edgeTo source way target)
  /-- It leads from inside of a loop back to the loop, or to itself from a loop without a body. -/
  | back {loop : Numbered} {exit : Exit} (hloop : loop ∈ listing nodes) (hflow : loop.flow = .loop)
      (hsource : exit.node ∈ ids loop.children ∨ loop.children = [] ∧ exit = { node := loop.id, way := .whenTrue })
      (eq : edge = exit.backTo loop.id)
  /-- It leads from a return to the terminal. -/
  | final {node : Numbered} (hnode : node ∈ listing nodes) (hflow : node.flow = .returning)
      (eq : edge = { source := node.id, target := .terminal, label := none })

theorem mem_ids_of_back {loop : Numbered} {exit : Exit}
    (h : exit.node ∈ ids loop.children ∨ loop.children = [] ∧ exit = { node := loop.id, way := .whenTrue }) :
    exit.node ∈ ids [loop] := by
  rw [ids_cons, ids_nil, List.append_nil, List.mem_cons]
  exact h.symm.imp_left fun hself => congrArg Exit.node hself.2

theorem EdgeCases.mono {part nodes : List Numbered} (h : ∀ node ∈ listing part, node ∈ listing nodes)
    {edge : Edge} (hedge : EdgeCases part edge) : EdgeCases nodes edge := by
  have hids : ∀ id ∈ ids part, id ∈ ids nodes := by
    intro id hid
    obtain ⟨node, hnode, rfl⟩ := mem_ids.mp hid
    exact mem_ids.mpr ⟨node, h node hnode, rfl⟩
  cases hedge with
  | forward hsource htarget hlt eq => exact .forward (hids _ hsource) (hids _ htarget) hlt eq
  | back hloop hflow hsource eq => exact .back (h _ hloop) hflow hsource eq
  | final hnode hflow eq => exact .final (h _ hnode) hflow eq

theorem mem_ids_cons {id : Nat} {node : Numbered} {rest : List Numbered} :
    id ∈ ids (node :: rest) ↔ id = node.id ∨ id ∈ ids node.children ∨ id ∈ ids rest := by
  rw [ids_cons, List.mem_cons, List.mem_append]

/-- The edges between neighbours lead forward. -/
theorem edgeCases_of_mem_links {group : List Numbered} (hwf : WellFormed group) (hord : Ordered group)
    {edge : Edge} (h : edge ∈ links group) : EdgeCases group edge := by
  fun_induction links group with
  | case1 first next rest ih =>
    obtain ⟨-, -, hwfRest⟩ := wellFormed_cons.mp hwf
    obtain ⟨-, hlt, -, hordRest, hlt'⟩ := ordered_cons.mp hord
    have hnext : next.id ∈ ids (next :: rest) := by simp
    rcases List.mem_append.mp h with h | h
    · obtain ⟨exit, hexit, rfl⟩ := List.mem_map.mp h
      have hin : exit.node ∈ ids [first] :=
        node_mem_ids_of_mem_exits (hwf.of_subset (by simp)) exit hexit
      simp only [mem_ids_cons, ids_nil, List.not_mem_nil, or_false] at hin
      refine .forward (mem_ids_cons.mpr (hin.imp_right .inl)) (mem_ids_cons.mpr (.inr (.inr hnext))) ?_ rfl
      rcases hin with hin | hin
      · exact hin ▸ hlt _ hnext
      · exact hlt' _ hin _ hnext
    · refine (ih hwfRest hordRest h).mono fun node hnode => ?_
      rw [listing_cons first]
      exact List.mem_cons_of_mem _ (List.mem_append_right _ hnode)
  | case2 => exact absurd h List.not_mem_nil

/-- The edge into a group leads forward. -/
theorem edgeCases_of_mem_entryOf {node : Numbered} {way : Way} {group : List Numbered}
    (hgroup : ∀ child ∈ group, child ∈ node.children) (hord : Ordered [node]) {edge : Edge}
    (h : edge ∈ entryOf node.id way group) : EdgeCases [node] edge := by
  cases group with
  | nil => exact absurd h List.not_mem_nil
  | cons first rest =>
    rw [entryOf_cons, List.mem_singleton] at h
    have hfirst : first.id ∈ ids node.children :=
      ids_subset_of_subset hgroup first.id (by simp)
    exact .forward (by simp) (by simp [hfirst]) ((ordered_cons.mp hord).1 _ hfirst) h

theorem edgeCases_of_mem_ownEdges {node : Numbered} (hwf : WellFormed [node]) (hord : Ordered [node])
    {edge : Edge} (h : edge ∈ ownEdges node) : EdgeCases [node] edge := by
  obtain ⟨-, hwfInside, -⟩ := wellFormed_cons.mp hwf
  obtain ⟨-, -, hordInside, -, -⟩ := ordered_cons.mp hord
  have inGroup : ∀ {group : List Numbered}, group.Sublist node.children → edge ∈ links group →
      EdgeCases [node] edge := by
    intro group hgroup hedge
    refine (edgeCases_of_mem_links (hwfInside.of_subset hgroup.subset)
      (hordInside.of_sublist hgroup) hedge).mono fun n hn => ?_
    obtain ⟨child, hchild, hin⟩ := mem_listing.mp hn
    rw [listing_cons, listing_nil, List.append_nil]
    exact List.mem_cons_of_mem _ (mem_listing.mpr ⟨child, hgroup.subset hchild, hin⟩)
  unfold ownEdges at h
  split at h
  · exact absurd h List.not_mem_nil
  · rename_i hflow
    exact .final (by simp) hflow (List.mem_singleton.mp h)
  · simp only [List.mem_append] at h
    rcases h with (h | h) | h | h
    · exact edgeCases_of_mem_entryOf (fun _ hc => List.mem_of_mem_filter hc) hord h
    · exact edgeCases_of_mem_entryOf (fun _ hc => List.mem_of_mem_filter hc) hord h
    · exact inGroup List.filter_sublist h
    · exact inGroup List.filter_sublist h
  · rename_i hflow
    simp only [List.mem_append] at h
    rcases h with (h | h) | h
    · exact edgeCases_of_mem_entryOf (fun _ hc => hc) hord h
    · exact inGroup (List.Sublist.refl _) h
    · obtain ⟨exit, hexit, rfl⟩ := List.mem_map.mp h
      refine .back (by simp) hflow ?_ rfl
      rcases node_of_mem_branchOf_exits (node_mem_ids_of_mem_exits hwfInside) hexit with hin | ⟨hnil, rfl⟩
      · exact .inl hin
      · exact .inr ⟨hnil, rfl⟩

theorem edgeCases_of_mem_edges {nodes : List Numbered} (hwf : WellFormed nodes) (hord : Ordered nodes)
    {edge : Edge} (h : edge ∈ (wiringOf nodes).edges) : EdgeCases nodes edge := by
  rw [(edges_perm hwf).mem_iff, List.mem_append, List.mem_flatMap] at h
  rcases h with h | ⟨node, hnode, h⟩
  · exact edgeCases_of_mem_links hwf hord h
  · exact (edgeCases_of_mem_ownEdges (hwf.of_mem_listing hnode) (hord.of_mem_listing hnode) h).mono
      fun _ hn => (listing_sublist_of_mem hnode).subset hn

end FlowPath.Graph
