import FlowPath.Proofs.Graph.Contraction
import FlowPath.Proofs.Statement.Compact
import FlowPath.Proofs.Statement.Marks

/-!
# Graphs of compacted statements

The graph of a compacted sequence is the graph of the sequence with its longest runs of blocks
contracted. `mergesWell` follows compaction through all groups, run by run, and finds which nodes go
together; `compactSequence_contracts` says what that means for nodes, labels, edges and exits. An edge
of a node to itself does not count as contracted (`not_contractsTo_isWithin_loop`).
-/

namespace FlowPath.Graph

open Statement (compactSequence compactInside mergeRuns shownAll)

/-- No statement in the body of a loop plays the role of an alternate. -/
def PlainBody (s : Statement) : Prop :=
  s.kind = .loop → ∀ child ∈ s.children, child.role ≠ some .alternate

instance : DecidablePred PlainBody := fun s =>
  inferInstanceAs (Decidable (s.kind = .loop → ∀ child ∈ s.children, _))

theorem plainBody_compactInside {s : Statement} (h : PlainBody s) : PlainBody s.compactInside := by
  intro hkind child hchild
  rw [Statement.compactInside_kind] at hkind
  obtain ⟨c, hc, text, rfl⟩ := Statement.mem_compactInside_children hchild (by rw [hkind]; rfl)
  simpa using h hkind c hc

/-- What a graph writes on the node of a statement. -/
def shownLabel (s : Statement) : String := if s.kind = .returning then "" else s.text

theorem shownLabel_compactInside (s : Statement) : shownLabel s.compactInside = shownLabel s := by
  simp [shownLabel]

theorem nodeOf_label (id : Nat) (s : Statement) : (nodeOf id s).label = shownLabel s := by
  unfold nodeOf shownLabel
  cases s.kind <;> rfl

section Merge

variable {known known' : Nat → Statement → Prop} {label label' : Nat → String}

/-- The groups of a node stand for the branches of its statement. -/
theorem mirrors_branch {node : Numbered} {s : Statement} (h : Mirrors known node s) (hs : PlainBody s) :
    List.Forall₂ (Mirrors known) node.whenTrue (s.branch false) ∧
      List.Forall₂ (Mirrors known) node.whenFalse (s.branch true) := by
  by_cases hloop : node.flow = .loop
  · have hkind : s.kind = .loop := ofKind_eq_loop.mp (h.flow.symm.trans hloop)
    have hplain : ∀ c ∈ s.shownChildren, c.isAlternate = false := fun c hc => by
      simpa [Statement.isAlternate] using hs hkind c (Statement.mem_children_of_mem_shownChildren hc)
    have hfalse : s.branch false = s.shownChildren :=
      List.filter_eq_self.mpr fun c hc => by rw [hplain c hc]; rfl
    have htrue : s.branch true = [] :=
      List.filter_eq_nil_iff.mpr fun c hc => by rw [hplain c hc]; decide
    rw [whenTrue_of_loop hloop, whenFalse_of_loop hloop, hfalse, htrue]
    exact ⟨h.inside, .nil⟩
  · rw [whenTrue_of_not_loop hloop, whenFalse_of_not_loop hloop]
    exact ⟨List.rel_filter (fun _ _ hm => by simp [hm.role, Statement.isAlternate]) h.inside,
      List.rel_filter (fun _ _ hm => by simp [hm.role, Statement.isAlternate]) h.inside⟩

theorem Mirrors.block {node : Numbered} {s : Statement} (h : Mirrors known node s)
    (hs : s.kind.isMergeable = true) : node.flow = .block ∧ node.children = [] := by
  have hkind : FlowClass.ofKind s.kind = .block := by
    revert hs
    cases s.kind <;> decide
  have inside := h.inside
  rw [Statement.shownChildren_of_mergeable hs] at inside
  exact ⟨h.flow.trans hkind, List.forall₂_nil_right_iff.mp inside⟩

theorem Mirrors.flow_ne_block {node : Numbered} {s : Statement} (h : Mirrors known node s)
    (hs : s.kind.isMergeable = false) : node.flow ≠ .block := by
  rw [h.flow]
  revert hs
  cases s.kind <;> decide

theorem map_label_eq (hlabel : ∀ id s, known id s → label id = shownLabel s) {nodes : List Numbered}
    {statements : List Statement} (h : List.Forall₂ (Mirrors known) nodes statements) :
    nodes.map (fun node => label node.id) = statements.map shownLabel := by
  induction h with
  | nil => rfl
  | cons hnode _ ih =>
    rw [List.map_cons, List.map_cons, ih, hlabel _ _ hnode.self]

/-- The label of a merged run has a line for every statement of it. -/
theorem shownLabel_fuse {first : Statement} {others : List Statement}
    (h : ∀ s ∈ first :: others, s.kind.isMergeable = true) :
    shownLabel (Statement.fuse first others) = "\n".intercalate ((first :: others).map shownLabel) := by
  have hkind : ∀ s ∈ first :: others, s.kind ≠ .returning := fun s hs hk => by
    simpa [hk, Statement.Kind.isMergeable] using h s hs
  have htext : (first :: others).map shownLabel = (first :: others).map (·.text) :=
    List.map_congr_left fun s hs => if_neg (hkind s hs)
  rw [htext]
  exact if_neg (hkind first List.mem_cons_self)

/-- The sequence is merged into its compacted form, with labels that are joined line by line. -/
def MergesWell (known known' : Nat → Statement → Prop) (label label' : Nat → String)
    (statements : List Statement) : Prop :=
  ∀ nodes nodes', (∀ s ∈ statements, s.Everywhere PlainBody) →
    List.Forall₂ (Mirrors known) nodes statements →
    List.Forall₂ (Mirrors known') nodes' (mergeRuns (statements.map compactInside)) →
    ∃ table, Merges nodes nodes' table ∧ ∀ line ∈ table,
      label' line.2.id = "\n".intercalate (line.1.map fun node => label node.id)

section Labels

variable (hlabel : ∀ id s, known id s → label id = shownLabel s)
  (hlabel' : ∀ id s, known' id s → label' id = shownLabel s)
include hlabel hlabel'

/-- A statement that is not merged stands for itself, and its branches are merged. -/
theorem mergesWell_cons {s : Statement} {rest : List Statement} (hs : s.kind.isMergeable = false)
    (hbranch : ∀ alternate, MergesWell known known' label label' (s.branch alternate))
    (hrestWell : MergesWell known known' label label' rest) :
    MergesWell known known' label label' (s :: rest) := by
  intro nodes nodes' hplain hnodes hnodes'
  rw [List.forall_mem_cons] at hplain
  rw [Statement.mergeRuns_compactInside_cons hs] at hnodes'
  cases hnodes with
  | @cons node _ rest _ hnode hrest =>
    cases hnodes' with
    | @cons node' _ rest' _ hnode' hrest' =>
      obtain ⟨hTrue, hFalse⟩ := mirrors_branch hnode hplain.1.self
      obtain ⟨hTrue', hFalse'⟩ := mirrors_branch hnode' (plainBody_compactInside hplain.1.self)
      rw [Statement.branch_compactInside] at hTrue' hFalse'
      have hbelow (alternate : Bool) : ∀ c ∈ s.branch alternate, c.Everywhere PlainBody := fun c hc =>
        hplain.1.inside c (Statement.mem_children_of_mem_branch hc).1
      obtain ⟨t₁, hmergeTrue, hlabelsTrue⟩ := hbranch false _ _ (hbelow false) hTrue hTrue'
      obtain ⟨t₂, hmergeFalse, hlabelsFalse⟩ := hbranch true _ _ (hbelow true) hFalse hFalse'
      obtain ⟨table, hmerge, hlabels⟩ := hrestWell _ _ hplain.2 hrest hrest'
      have hflow : node'.flow = node.flow := by
        rw [hnode.flow, hnode'.flow, Statement.compactInside_kind]
      refine ⟨_, .single hflow (hnode.flow_ne_block hs) hmergeTrue hmergeFalse hmerge, ?_⟩
      refine List.forall_mem_cons.mpr ⟨?_, ?_⟩
      · rw [hlabel' _ _ hnode'.self, shownLabel_compactInside, ← hlabel _ _ hnode.self]
        rfl
      · exact List.forall_mem_append.mpr ⟨List.forall_mem_append.mpr ⟨hlabelsTrue, hlabelsFalse⟩, hlabels⟩

/-- A longest run becomes one block. -/
theorem mergesWell_run {first : Statement} {others rest : List Statement}
    (hrun : ∀ s ∈ first :: others, s.kind.isMergeable = true)
    (hrest : ∀ s ∈ rest.head?, s.kind.isMergeable = false)
    (hrestWell : MergesWell known known' label label' rest) :
    MergesWell known known' label label' (first :: others ++ rest) := by
  intro nodes nodes' hplain hnodes hnodes'
  rw [List.forall_mem_append] at hplain
  have hrun' : ∀ s ∈ (first :: others).map compactInside, s.kind.isMergeable = true :=
    List.forall_mem_map.mpr fun s hs => by simpa using hrun s hs
  rw [Statement.mergeRuns_compactInside_append hrun hrest] at hnodes'
  have hblocks := List.forall₂_take_append nodes (first :: others) rest hnodes
  have hothers := List.forall₂_drop_append nodes (first :: others) rest hnodes
  rw [← List.take_append_drop (first :: others).length nodes]
  generalize nodes.take (first :: others).length = blocks at hblocks
  generalize nodes.drop (first :: others).length = remaining at hothers
  cases hnodes' with
  | @cons merged _ rest' _ hmerged hrestMerged =>
    obtain ⟨table, hmerge, hlabels⟩ := hrestWell _ _ hplain.2 hothers hrestMerged
    have hends : ∀ node ∈ remaining.head?, node.flow ≠ .block := by
      cases hothers with
      | nil => exact nofun
      | cons hnext _ => simpa using hnext.flow_ne_block (hrest _ rfl)
    have hall : ∀ node ∈ blocks, node.flow = .block ∧ node.children = [] := by
      intro node hnode
      obtain ⟨s, hs, hm⟩ := exists_of_forall₂ hblocks hnode
      exact hm.block (hrun s hs)
    have hkind : (Statement.fuse first.compactInside (others.map compactInside)).kind.isMergeable = true :=
      hrun' first.compactInside List.mem_cons_self
    obtain ⟨hblock, hleaf⟩ := hmerged.block hkind
    have hline : label' merged.id = "\n".intercalate (blocks.map fun node => label node.id) := by
      rw [hlabel' _ _ hmerged.self, shownLabel_fuse hrun', map_label_eq hlabel hblocks, ← List.map_cons,
        List.map_map]
      simp only [Function.comp_def, shownLabel_compactInside]
    cases hblocks
    exact ⟨_, .run hall hends hblock hleaf hmerge, List.forall_mem_cons.mpr ⟨hline, hlabels⟩⟩

theorem mergesWell (statements : List Statement) :
    MergesWell known known' label label' statements := by
  refine Statement.block_induction ?_ ?_ ?_ statements
  · intro nodes nodes' _ hnodes hnodes'
    cases hnodes
    cases hnodes'
    exact ⟨[], .nil, nofun⟩
  · intro s rest hs hfalse htrue hrest
    exact mergesWell_cons hlabel hlabel' hs (Bool.rec hfalse htrue) hrest
  · intro first others rest hrun hends hrest
    exact mergesWell_run hlabel hlabel' hrun hends hrest

end Labels

end Merge

/-! ## The graphs of a sequence and of its compacted form -/

/-- What the draft writes on the node of a number. -/
def Draft.labelAt (draft : Draft) (id : Nat) : String := (draft.nodes[id]?.map (·.label)).getD ""

theorem labelAt_numberAll (statements : List Statement) (id : Nat) (s : Statement)
    (h : (shownAll statements)[id]? = some s) :
    (numberAll statements {}).2.labelAt id = shownLabel s := by
  have hnode : (numberAll statements {}).2.nodes[id]? = some (nodeOf id s) := by
    rw [← Array.getElem?_toList, nodes_numberAll, List.getElem?_mapIdx, h]
    rfl
  simp [Draft.labelAt, hnode, nodeOf_label]

theorem nodup_ids_numberAll (statements : List Statement) : (ids (numberAll statements {}).1).Nodup := by
  rw [ids_numberAll_empty]
  exact List.nodup_range

/-- The table by which compaction merges the nodes of a sequence. -/
theorem merges_compactSequence (statements : List Statement)
    (hplain : ∀ s ∈ statements, s.Everywhere PlainBody) :
    ∃ table, Merges (numberAll statements {}).1 (numberAll (compactSequence statements) {}).1 table ∧
      ∀ line ∈ table, (numberAll (compactSequence statements) {}).2.labelAt line.2.id =
        "\n".intercalate (line.1.map fun node => (numberAll statements {}).2.labelAt node.id) := by
  refine mergesWell (labelAt_numberAll statements) (labelAt_numberAll (compactSequence statements))
    statements _ _ hplain (mirrors_numberAll_empty statements) ?_
  rw [← Statement.compactAllInside_eq_map]
  exact mirrors_numberAll_empty (compactSequence statements)

/-- Only a loop without a body has an edge to itself. -/
theorem loop_of_self_edge {nodes : List Numbered} (hwf : WellFormed nodes) (hord : Ordered nodes)
    {edge : Edge} (h : edge ∈ (wiringOf nodes).edges) (hself : edge.target = .node edge.source) :
    edge.label = some (backLabel .whenTrue) ∧
      ∃ node ∈ listing nodes, node.id = edge.source ∧ node.flow = .loop ∧ node.children = [] := by
  cases edgeCases_of_mem_edges hwf hord h with
  | @forward source target way _ _ hlt eq =>
    subst eq
    have hsame : target = source := Target.node.inj hself
    omega
  | @back loop exit hloop hflow hsource eq =>
    subst eq
    have hsame : loop.id = exit.node := Target.node.inj hself
    rcases hsource with hinside | ⟨hleaf, rfl⟩
    · have hlt := (ordered_cons.mp (hord.of_mem_listing hloop)).1 _ hinside
      omega
    · exact ⟨rfl, loop, hloop, hsame, hflow, hleaf⟩
  | final _ _ eq =>
    subst eq
    exact nomatch hself

/-- The map makes the graph of the second sequence out of that of the first. What goes to one node is a
single node or a longest run of blocks that follow each other in one group, and the label of the image
has the labels of all, line by line. Of the edges that lie inside such a part, in the sense given, there
are only the straight ones between neighbours. All others, those to the terminal among them, are the
edges of the second graph up to the map, with their labels and in order, and so are the exits. -/
structure ContractsTo (inside : (Nat → Nat) → Edge → Bool) (statements statements' : List Statement)
    (p : Nat → Nat) : Prop where
  into : ∀ id ∈ ids (numberAll statements {}).1, p id ∈ ids (numberAll statements' {}).1
  onto : ∀ id' ∈ ids (numberAll statements' {}).1, ∃ id ∈ ids (numberAll statements {}).1, p id = id'
  parts : ∀ id' ∈ ids (numberAll statements' {}).1,
    GoesTogether (numberAll statements {}).1 (fibreOf p (numberAll statements {}).1 id')
  labels : ∀ id' ∈ ids (numberAll statements' {}).1, (numberAll statements' {}).2.labelAt id' =
    "\n".intercalate ((fibreOf p (numberAll statements {}).1 id').map fun node =>
      (numberAll statements {}).2.labelAt node.id)
  chains : ∀ id' ∈ ids (numberAll statements' {}).1,
    (wiringOf (numberAll statements {}).1).edges.filter
        (fun edge => inside p edge && p edge.source = id') =
      chain (fibreOf p (numberAll statements {}).1 id')
  edges : (wiringOf (numberAll statements' {}).1).edges =
    ((wiringOf (numberAll statements {}).1).edges.filter fun edge => !inside p edge).map (Edge.rename p)
  exits : (wiringOf (numberAll statements' {}).1).exits =
    (wiringOf (numberAll statements {}).1).exits.map (Exit.rename p)

/-- Compaction contracts the longest runs of blocks of a graph and nothing else. The edge of a loop
without a body to itself is the only one that joins a node with itself, and it stays. -/
theorem compactSequence_contracts (statements : List Statement)
    (hplain : ∀ s ∈ statements, s.Everywhere PlainBody) :
    (∃ p, ContractsTo Edge.isInside statements (compactSequence statements) p) ∧
      ∀ edge ∈ (wiringOf (numberAll statements {}).1).edges, edge.target = .node edge.source →
        edge.label = some "T\nwhile" ∧
          ∃ node ∈ listing (numberAll statements {}).1,
            node.id = edge.source ∧ node.flow = .loop ∧ node.children = [] := by
  have hwf := wellFormed_numberAll statements
  have hids := nodup_ids_numberAll statements
  have hids' := nodup_ids_numberAll (compactSequence statements)
  refine ⟨?_, fun edge => loop_of_self_edge hwf (ordered_numberAll statements {})⟩
  obtain ⟨table, hmerge, hlabels⟩ := merges_compactSequence statements hplain
  have hp : GoesBy (imageOf table) table := fun line hline node =>
    imageOf_eq (hmerge.nodup_sources hids) hline
  have hcontracts := contracts_of_merges hmerge hp hwf hids hids'
  have htogether := hmerge.goesTogether_append [] (.inl nofun)
  refine ⟨imageOf table, ⟨fun _ => image_mem_ids hmerge hp, ?_, ?_, ?_, ?_, ?_, hcontracts.exits⟩⟩
  · intro id' hid'
    obtain ⟨line, hline, rfl, -⟩ := exists_line_of_mem_ids hmerge hids hids' hid'
    obtain ⟨node, hnode⟩ := List.exists_mem_of_ne_nil _ (htogether line hline).ne_nil
    exact ⟨node.id, List.mem_map_of_mem ((hmerge.sublist_listing line hline).subset hnode),
      hp line hline node hnode⟩
  · intro id' hid'
    obtain ⟨line, hline, rfl, hfibre⟩ := exists_line_of_mem_ids hmerge hids hids' hid'
    rw [hfibre]
    exact htogether line hline
  · intro id' hid'
    obtain ⟨line, hline, rfl, hfibre⟩ := exists_line_of_mem_ids hmerge hids hids' hid'
    rw [hfibre]
    exact hlabels line hline
  · intro id' hid'
    obtain ⟨line, hline, rfl, hfibre⟩ := exists_line_of_mem_ids hmerge hids hids' hid'
    rw [hfibre]
    exact filter_isInside_eq_chain hmerge hp hwf hids hids' hline
  · exact hcontracts.edges.image.symm

/-- Runs in a sequence, in the body of a loop and in a branch, and a loop without a body. -/
def scatteredRuns : List Statement :=
  [.plain "a", .assignment "b = 1", .whileLoop "c" [.plain "d", .plain "e", .returning "f"],
    .conditional "g" [.plain "h"] [.plain "i", .plain "j"], .whileLoop "k" [], .plain "l"]

theorem compactSequence_contracts_scatteredRuns :
    (∀ s ∈ scatteredRuns, s.Everywhere PlainBody) ∧
      ∃ p, ContractsTo Edge.isInside scatteredRuns (compactSequence scatteredRuns) p :=
  have hplain : ∀ s ∈ scatteredRuns, s.Everywhere PlainBody := by decide
  ⟨hplain, (compactSequence_contracts scatteredRuns hplain).1⟩

/-- Both ends of the edge go to one node, which may be one end. -/
def Edge.isWithin (p : Nat → Nat) (edge : Edge) : Bool :=
  match edge.target with
  | .node target => p edge.source = p target
  | .terminal => false

/-- The edge of a loop without a body to itself is not contracted: its ends go to one node, and it is
no edge between neighbours of a run. -/
theorem not_contractsTo_isWithin_loop :
    (∀ s ∈ [Statement.whileLoop "c" []], s.Everywhere PlainBody) ∧
      ¬ ∃ p, ContractsTo Edge.isWithin [.whileLoop "c" []] (compactSequence [.whileLoop "c" []]) p := by
  refine ⟨by decide, ?_⟩
  rintro ⟨p, h⟩
  have hloop : (wiringOf (numberAll [.whileLoop "c" []] {}).1).edges =
      [{ source := 0, target := .node 0, label := some "T\nwhile" }] := by decide
  have hnone : (wiringOf (numberAll (compactSequence [.whileLoop "c" []]) {}).1).edges = [] := by
    rw [h.edges, hloop]
    simp [Edge.isWithin]
  exact absurd hnone (by decide)

end FlowPath.Graph
