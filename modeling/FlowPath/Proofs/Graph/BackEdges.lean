import Mathlib.Data.List.Nodup
import FlowPath.Proofs.Graph.Reach

/-!
# Edges that lead back

Along an edge the numbers of the nodes grow, unless the edge closes a loop. `edge_leads_back_iff` tells
the two kinds apart by their labels, and says where an edge that leads back ends: at a loop, around the
node where it starts. What is left without those edges has no cycles, since every way through it goes
up (`lt_of_forward`).
-/

namespace FlowPath.Graph

/-- The label of the edge ends in the word of loops, on a line of its own. -/
def Edge.endsInWhile (edge : Edge) : Bool :=
  edge.label.any fun label => "\nwhile".toList.isSuffixOf label.toList

@[simp] theorem endsInWhile_edgeTo (source target : Nat) (way : Way) :
    (edgeTo source way target).endsInWhile = false := by
  cases way <;> rfl

@[simp] theorem endsInWhile_backTo (exit : Exit) (loop : Nat) :
    (exit.backTo loop).endsInWhile = true := by
  simp only [Edge.endsInWhile, Exit.backTo, backLabel, Option.any_some, List.isSuffixOf_iff_suffix,
    String.toList_append]
  exact List.suffix_append _ _

/-- The edges that do not lead back. -/
def forwardEdges (edges : List Edge) : List Edge := edges.filter fun edge => !edge.endsInWhile

theorem Ordered.eq_of_id_eq {nodes : List Numbered} (h : Ordered nodes) {a b : Numbered}
    (ha : a ∈ listing nodes) (hb : b ∈ listing nodes) (hid : a.id = b.id) : a = b :=
  List.inj_on_of_nodup_map (h.imp Nat.ne_of_lt) ha hb hid

/-- Where the edge of a loop starts: at the loop itself, which is then empty, or at a node inside it. -/
theorem source_of_back {nodes : List Numbered} (hord : Ordered nodes) {source loop : Numbered}
    (hsource : source ∈ listing nodes) (hloop : loop ∈ listing nodes)
    (h : source.id ∈ ids loop.children ∨ loop.children = [] ∧ source.id = loop.id) :
    source = loop ∧ loop.children = [] ∨ source ∈ listing loop.children := by
  rcases h with hin | ⟨hempty, hself⟩
  · obtain ⟨node, hnode, hid⟩ := mem_ids.mp hin
    have hinside : node ∈ listing nodes := by
      refine (listing_sublist_of_mem hloop).subset ?_
      rw [listing_cons]
      exact List.mem_cons_of_mem _ (List.mem_append_left _ hnode)
    exact .inr (hord.eq_of_id_eq hinside hsource hid ▸ hnode)
  · exact .inl ⟨hord.eq_of_id_eq hsource hloop hself, hempty⟩

/-- An edge between two nodes leads to a number that is not larger exactly if its label ends in the word
of loops. It then leads to a loop: from the loop itself if that is empty, else from a node inside it. -/
theorem edge_leads_back_iff {nodes : List Numbered} (hwf : WellFormed nodes) (hord : Ordered nodes)
    {source target : Numbered} (hsource : source ∈ listing nodes) (htarget : target ∈ listing nodes)
    {edge : Edge} (hedge : edge ∈ (wiringOf nodes).edges) (hfrom : edge.source = source.id)
    (hto : edge.target = .node target.id) :
    (target.id ≤ source.id ↔ edge.endsInWhile = true) ∧
      (target.id ≤ source.id → target.flow = .loop ∧
        (source = target ∧ target.children = [] ∨ source ∈ listing target.children)) := by
  cases edgeCases_of_mem_edges hwf hord hedge with
  | @forward start stop way _ _ hlt eq =>
    subst eq
    obtain rfl : start = source.id := hfrom
    obtain rfl : stop = target.id := by simpa [edgeTo] using hto
    have hnot : ¬ target.id ≤ source.id := Nat.not_le.mpr hlt
    exact ⟨by simp [hnot], fun h => absurd h hnot⟩
  | @back loop exit hloop hflow hstart eq =>
    subst eq
    have hnode : exit.node = source.id := hfrom
    have hid : loop.id = target.id := by simpa [Exit.backTo] using hto
    obtain rfl : loop = target := hord.eq_of_id_eq hloop htarget hid
    have hstart := hstart.imp_right (And.imp_right (congrArg Exit.node))
    rw [hnode] at hstart
    have hle : loop.id ≤ source.id := by
      rcases hstart with hin | ⟨-, hself⟩
      · exact Nat.le_of_lt ((ordered_cons.mp (hord.of_mem_listing hloop)).1 _ hin)
      · exact Nat.le_of_eq hself.symm
    exact ⟨by simp [hle], fun _ => ⟨hflow, source_of_back hord hsource hloop hstart⟩⟩
  | final _ _ eq =>
    subst eq
    cases hto

/-- An edge that does not lead back goes up. -/
theorem lt_of_mem_forwardEdges {nodes : List Numbered} (hwf : WellFormed nodes) (hord : Ordered nodes)
    {edge : Edge} (hedge : edge ∈ forwardEdges (wiringOf nodes).edges) {target : Nat}
    (hto : edge.target = .node target) : edge.source < target := by
  obtain ⟨hin, hnot⟩ := List.mem_filter.mp hedge
  cases edgeCases_of_mem_edges hwf hord hin with
  | @forward start stop way _ _ hlt eq =>
    subst eq
    obtain rfl : stop = target := by simpa [edgeTo] using hto
    exact hlt
  | back _ _ _ eq =>
    subst eq
    simp at hnot
  | final _ _ eq =>
    subst eq
    cases hto

/-- A way along edges that do not lead back goes up. -/
theorem lt_of_forward {nodes : List Numbered} (hwf : WellFormed nodes) (hord : Ordered nodes)
    {source target : Nat}
    (h : Relation.TransGen (Step (fun _ => True) (forwardEdges (wiringOf nodes).edges)) source target) :
    source < target := by
  have step {source target : Nat}
      (h : Step (fun _ => True) (forwardEdges (wiringOf nodes).edges) source target) : source < target := by
    obtain ⟨-, -, edge, hedge, rfl, hto⟩ := h
    exact lt_of_mem_forwardEdges hwf hord hedge hto
  induction h with
  | single hstep => exact step hstep
  | tail _ hstep ih => exact Nat.lt_trans ih (step hstep)

/-- The edges that lead back are those of the loops. In the graph of a sequence an edge between two nodes
leads to a number that is not larger exactly if its label ends in the word of loops, and then it leads to
a loop, from the loop itself if that is empty or else from a node inside it. Along all other edges the
numbers grow, so without the edges of loops there are no cycles. -/
theorem back_edges_numberAll (statements : List Statement) :
    let nodes := (numberAll statements {}).1
    let edges := (wiringOf nodes).edges
    (∀ source ∈ listing nodes, ∀ target ∈ listing nodes, ∀ edge ∈ edges,
      edge.source = source.id → edge.target = .node target.id →
        (target.id ≤ source.id ↔ edge.endsInWhile = true) ∧
          (target.id ≤ source.id → target.flow = .loop ∧
            (source = target ∧ target.children = [] ∨ source ∈ listing target.children))) ∧
    (∀ edge ∈ forwardEdges edges, ∀ target, edge.target = .node target → edge.source < target) ∧
    ∀ id, ¬ Relation.TransGen (Step (fun _ => True) (forwardEdges edges)) id id := by
  intro nodes edges
  have hwf : WellFormed nodes := wellFormed_numberAll statements
  have hord : Ordered nodes := ordered_numberAll statements {}
  refine ⟨?_, ?_, ?_⟩
  · intro source hsource target htarget edge hedge hfrom hto
    exact edge_leads_back_iff hwf hord hsource htarget hedge hfrom hto
  · intro edge hedge target hto
    exact lt_of_mem_forwardEdges hwf hord hedge hto
  · intro id hcycle
    exact Nat.lt_irrefl id (lt_of_forward hwf hord hcycle)

/-- A loop in a branch of a conditional in a loop: the inner loop leads back to itself, and what leaves the
conditional leads back to the outer loop. -/
theorem back_edges_numberAll_nested_loops :
    let nodes := (numberAll [.whileLoop "a" [.conditional "b" [.whileLoop "c" []] []]] {}).1
    let edges := (wiringOf nodes).edges
    (∃ outer ∈ listing nodes, ∃ inner ∈ listing nodes, ∃ edge ∈ edges,
      edge = { source := inner.id, target := .node outer.id, label := some "F\nwhile" } ∧
        outer.flow = .loop ∧ inner ∈ listing outer.children) ∧
      (∃ edge ∈ forwardEdges edges, edge.target = .node 2 ∧ edge.source < 2) := by
  intro nodes edges
  obtain ⟨hback, hforward, -⟩ :=
    back_edges_numberAll [.whileLoop "a" [.conditional "b" [.whileLoop "c" []] []]]
  have houter : (⟨0, .loop, none, _⟩ : Numbered) ∈ listing nodes := List.mem_cons_self
  have hinner : (⟨2, .loop, some .consequent, []⟩ : Numbered) ∈ listing nodes :=
    .tail _ (.tail _ List.mem_cons_self)
  have hedge : { source := 2, target := .node 0, label := some "F\nwhile" } ∈ edges := by decide
  obtain ⟨-, hloop⟩ := hback _ hinner _ houter _ hedge rfl rfl
  refine ⟨⟨_, houter, _, hinner, _, hedge, rfl, rfl, ?_⟩, ?_⟩
  · rcases (hloop (by decide)).2 with ⟨hself, -⟩ | hin
    · cases hself
    · exact hin
  · have hentry : { source := 1, target := .node 2, label := some "T" } ∈ forwardEdges edges := by decide
    exact ⟨_, hentry, rfl, hforward _ hentry 2 rfl⟩

end FlowPath.Graph
