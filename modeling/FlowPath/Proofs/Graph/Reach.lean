import Mathlib.Logic.Relation
import FlowPath.Proofs.Graph.Wiring

/-!
# Ways through a graph

`Reaches P edges` goes from node to node along edges without leaving the nodes of `P`. A tree is
followed by `P` (`Followed`) if its root is in `P`, if `P` goes on into whole groups or not at all, and
if it takes at least one branch of every conditional it comes to. `connected_of_followed` shows that
`P` then hangs together: from the first node of a sequence all others in `P` can be reached within
`P`, and some exit as well.
-/

namespace FlowPath.Graph

/-- One step along an edge, from a node of `P` to a node of `P`. -/
def Step (P : Nat → Prop) (edges : List Edge) (source target : Nat) : Prop :=
  P source ∧ P target ∧ ∃ edge ∈ edges, edge.source = source ∧ edge.target = .node target

/-- A way along edges that stays within `P`. -/
abbrev Reaches (P : Nat → Prop) (edges : List Edge) : Nat → Nat → Prop :=
  Relation.ReflTransGen (Step P edges)

variable {P : Nat → Prop}

theorem Reaches.mono {edges edges' : List Edge} (h : ∀ edge ∈ edges, edge ∈ edges') {source target : Nat}
    (hr : Reaches P edges source target) : Reaches P edges' source target :=
  Relation.ReflTransGen.mono
    (fun _ _ ⟨hs, ht, edge, hedge, hends⟩ => ⟨hs, ht, edge, h edge hedge, hends⟩) _ _ hr

theorem step_edgeTo {edges : List Edge} {source target : Nat} (hs : P source) (ht : P target) {way : Way}
    (h : edgeTo source way target ∈ edges) : Step P edges source target :=
  ⟨hs, ht, _, h, rfl, rfl⟩

/-- No node of the tree is in `P`. -/
def Dark (P : Nat → Prop) (node : Numbered) : Prop := ∀ n ∈ listing [node], ¬ P n.id

/-- Whether the branch that a child belongs to is taken. -/
def Numbered.inTaken (whenTrue whenFalse : Bool) (child : Numbered) : Bool :=
  if child.role = some .alternate then whenFalse else whenTrue

/-- `P` goes through the tree as control may: it takes branches as a whole, at least one of every
conditional, and it takes all of the body of a loop or nothing of it. -/
inductive Followed (P : Nat → Prop) : Numbered → Prop where
  | intro {node : Numbered} (whenTrue whenFalse : Bool) (self : P node.id)
      (conditional : node.flow = .conditional → whenTrue = true ∨ whenFalse = true)
      (loop : node.flow = .loop → whenTrue = whenFalse)
      (taken : ∀ child ∈ node.children, child.inTaken whenTrue whenFalse = true → Followed P child)
      (left : ∀ child ∈ node.children, child.inTaken whenTrue whenFalse = false → Dark P child) :
      Followed P node

theorem Followed.self {node : Numbered} (h : Followed P node) : P node.id := by
  cases h; assumption

/-- From `start` all nodes of `P` can be reached, and an exit in `P`. -/
structure Connected (P : Nat → Prop) (wiring : Wiring) (start : Nat) (nodes : List Numbered) : Prop where
  nodes : ∀ node ∈ listing nodes, P node.id → Reaches P wiring.edges start node.id
  exits : ∃ exit ∈ wiring.exits, P exit.node ∧ Reaches P wiring.edges start exit.node

/-- If `P` goes through all of the sequence, it hangs together from the first node on. -/
def HangsTogether (P : Nat → Prop) (nodes : List Numbered) : Prop :=
  (∀ node ∈ nodes, Followed P node) →
    ∀ first ∈ nodes.head?, Connected P (wiringOf nodes) first.id nodes

/-- A group that is taken hangs together with the node that branches into it, and in a group that is
left out there is nothing to reach. -/
theorem connected_branchOf {id : Nat} (way : Way) {group : List Numbered} {isTaken : Bool}
    (edges : List Edge) (hid : P id)
    (taken : isTaken = true → ∀ child ∈ group, Followed P child)
    (left : isTaken = false → ∀ child ∈ group, Dark P child) (ih : HangsTogether P group)
    (hentry : ∀ edge ∈ entryOf id way group, edge ∈ edges)
    (hedges : ∀ edge ∈ (wiringOf group).edges, edge ∈ edges) :
    (∀ node ∈ listing group, P node.id → Reaches P edges id node.id) ∧
      (isTaken = true →
        ∃ exit ∈ (branchOf id way group).exits, P exit.node ∧ Reaches P edges id exit.node) := by
  cases isTaken with
  | false =>
    refine ⟨fun node hnode hp => ?_, nofun⟩
    obtain ⟨child, hchild, hin⟩ := mem_listing.mp hnode
    exact absurd hp (left rfl child hchild node (mem_listing.mpr ⟨child, List.mem_cons_self, hin⟩))
  | true =>
    cases group with
    | nil => exact ⟨nofun, fun _ => ⟨_, List.mem_cons_self, hid, .refl⟩⟩
    | cons first rest =>
      have hfollowed := taken rfl
      obtain ⟨hnodes, exit, hexit, hP, hreach⟩ := ih hfollowed first rfl
      have hstep : Step P edges id first.id :=
        step_edgeTo hid (hfollowed first List.mem_cons_self).self
          (hentry (edgeTo id way first.id) (by simp))
      exact ⟨fun node hnode hp => .head hstep ((hnodes node hnode hp).mono hedges),
        fun _ => ⟨exit, hexit, hP, .head hstep (hreach.mono hedges)⟩⟩

theorem connected_leaf {node : Numbered} {wiring : Wiring} (hleaf : node.children = [])
    (hexit : { node := node.id, way := .straight } ∈ wiring.exits) (h : Followed P node) :
    Connected P wiring node.id [node] := by
  refine ⟨fun n hn _ => ?_, _, hexit, h.self, .refl⟩
  rw [listing_cons, hleaf, listing_nil, List.append_nil, List.mem_singleton] at hn
  exact hn ▸ .refl

theorem connected_conditional {node : Numbered} (h : node.flow = .conditional)
    (hprimary : HangsTogether P node.primary) (halternate : HangsTogether P node.alternate)
    (hfollowed : Followed P node) : Connected P (wire node).wiring node.id [node] := by
  obtain ⟨whenTrue, whenFalse, self, conditional, -, taken, left⟩ := hfollowed
  have inPrimary : ∀ child ∈ node.primary, child ∈ node.children ∧
      child.inTaken whenTrue whenFalse = whenTrue := by
    intro child hchild
    obtain ⟨hin, hrole⟩ := List.mem_filter.mp hchild
    exact ⟨hin, if_neg (of_decide_eq_true hrole)⟩
  have inAlternate : ∀ child ∈ node.alternate, child ∈ node.children ∧
      child.inTaken whenTrue whenFalse = whenFalse := by
    intro child hchild
    obtain ⟨hin, hrole⟩ := List.mem_filter.mp hchild
    exact ⟨hin, if_pos (of_decide_eq_true hrole)⟩
  rw [wire_conditional h]
  simp only [branchOf_edges]
  generalize hE : entryOf node.id .whenTrue node.primary ++ entryOf node.id .whenFalse node.alternate ++
    (wiringOf node.primary).edges ++ (wiringOf node.alternate).edges = edges
  obtain ⟨nodesTrue, exitsTrue⟩ := connected_branchOf .whenTrue edges self
    (fun ht c hc => taken c (inPrimary c hc).1 ((inPrimary c hc).2.trans ht))
    (fun ht c hc => left c (inPrimary c hc).1 ((inPrimary c hc).2.trans ht)) hprimary
    (fun _ he => by simp [← hE, he]) (fun _ he => by simp [← hE, he])
  obtain ⟨nodesFalse, exitsFalse⟩ := connected_branchOf .whenFalse edges self
    (fun ht c hc => taken c (inAlternate c hc).1 ((inAlternate c hc).2.trans ht))
    (fun ht c hc => left c (inAlternate c hc).1 ((inAlternate c hc).2.trans ht)) halternate
    (fun _ he => by simp [← hE, he]) (fun _ he => by simp [← hE, he])
  refine ⟨fun n hn hp => ?_, ?_⟩
  · rw [listing_cons, listing_nil, List.append_nil, List.mem_cons,
      ← (listing_perm (primary_append_alternate_perm node)).mem_iff, listing_append,
      List.mem_append] at hn
    rcases hn with rfl | hn | hn
    · exact .refl
    · exact nodesTrue n hn hp
    · exact nodesFalse n hn hp
  · rcases conditional h with ht | ht
    · obtain ⟨exit, hexit, hreach⟩ := exitsTrue ht
      exact ⟨exit, List.mem_append_left _ hexit, hreach⟩
    · obtain ⟨exit, hexit, hreach⟩ := exitsFalse ht
      exact ⟨exit, List.mem_append_right _ hexit, hreach⟩

theorem connected_loop {node : Numbered} (h : node.flow = .loop)
    (hchildren : HangsTogether P node.children) (hfollowed : Followed P node) :
    Connected P (wire node).wiring node.id [node] := by
  obtain ⟨whenTrue, whenFalse, self, -, loop, taken, left⟩ := hfollowed
  have inBody : ∀ child : Numbered, child.inTaken whenTrue whenFalse = whenTrue := by
    intro child
    rw [Numbered.inTaken, loop h, ite_self]
  rw [wire_loop h]
  simp only [branchOf_edges]
  generalize hE : entryOf node.id .whenTrue node.children ++ (wiringOf node.children).edges ++
    (branchOf node.id .whenTrue node.children).exits.map (·.backTo node.id) = edges
  obtain ⟨nodesTrue, -⟩ := connected_branchOf .whenTrue edges self
    (fun ht c hc => taken c hc ((inBody c).trans ht))
    (fun ht c hc => left c hc ((inBody c).trans ht)) hchildren
    (fun _ he => by simp [← hE, he]) (fun _ he => by simp [← hE, he])
  refine ⟨fun n hn hp => ?_, _, List.mem_cons_self, self, .refl⟩
  rw [listing_cons, listing_nil, List.append_nil, List.mem_cons] at hn
  rcases hn with rfl | hn
  · exact .refl
  · exact nodesTrue n hn hp

/-- From a node control goes on to the next one, by an exit in `P`. -/
theorem connected_cons {node : Numbered} {rest : List Numbered}
    (hone : Connected P (wire node).wiring node.id [node]) (hrest : HangsTogether P rest)
    (hall : ∀ n ∈ rest, Followed P n) : Connected P (wiringOf (node :: rest)) node.id (node :: rest) := by
  cases rest with
  | nil => exact hone
  | cons next rest =>
    rw [wiringOf_cons_cons]
    obtain ⟨exit, hexit, hP, hreach⟩ := hone.exits
    obtain ⟨nodesRest, last, hlast, hPlast, hreachLast⟩ := hrest hall next rfl
    generalize hE : (wire node).wiring.edges ++ (wire node).wiring.exits.map (·.edgeTo next.id) ++
      (wiringOf (next :: rest)).edges = edges
    have inFirst : ∀ e ∈ (wire node).wiring.edges, e ∈ edges := fun _ he => by simp [← hE, he]
    have inRest : ∀ e ∈ (wiringOf (next :: rest)).edges, e ∈ edges := fun _ he => by simp [← hE, he]
    have hlink : exit.edgeTo next.id ∈ edges := by
      rw [← hE]
      exact List.mem_append_left _ (List.mem_append_right _ (List.mem_map.mpr ⟨exit, hexit, rfl⟩))
    have hnext : Reaches P edges node.id next.id :=
      (hreach.mono inFirst).tail (step_edgeTo hP (hall next List.mem_cons_self).self hlink)
    refine ⟨fun n hn hp => ?_, last, hlast, hPlast, hnext.trans (hreachLast.mono inRest)⟩
    rw [listing_cons node, ← List.cons_append, List.mem_append] at hn
    rcases hn with hn | hn
    · exact (hone.nodes n (by simpa using hn) hp).mono inFirst
    · exact hnext.trans ((nodesRest n hn hp).mono inRest)

/-- If `P` goes through the trees of a sequence as control may, it hangs together. -/
theorem connected_of_followed {nodes : List Numbered} (hwf : WellFormed nodes) :
    HangsTogether P nodes := by
  refine wiring_induction
    (fun node => Followed P node → Connected P (wire node).wiring node.id [node]) (HangsTogether P)
    ?_ ?_ (fun _ => connected_conditional) (fun _ => connected_loop) ?_ ?_ hwf
  · intro node h hleaf
    exact connected_leaf hleaf (wire_block h ▸ List.mem_cons_self)
  · intro node h hleaf
    exact connected_leaf hleaf (wire_returning h ▸ List.mem_cons_self)
  · intro _ first hfirst
    exact absurd hfirst (by simp)
  · intro node rest hnode hrest hall first hfirst
    obtain rfl : node = first := by simpa using hfirst
    obtain ⟨hfollowed, hall⟩ := List.forall_mem_cons.mp hall
    exact connected_cons (hnode hfollowed) hrest hall

end FlowPath.Graph
