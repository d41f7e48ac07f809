import Mathlib.Data.List.Nodup
import FlowPath.Proofs.Graph.Wiring

/-!
# Merged runs of a graph

`Merges` relates the numbered trees of two graphs, the second of which has one block for every longest
run of blocks in a group of the first. Its table lists which nodes go together, and `imageOf` reads a
map between the numbers off the table. The fibres of that map are the lines of the table (`fibreOf_eq`),
and each of them is a single node or a longest run of blocks (`Merges.goesTogether_append`).
-/

namespace FlowPath.Graph

/-! ## Groups and runs -/

/-- The children that a node goes to if its condition holds. -/
def Numbered.whenTrue (node : Numbered) : List Numbered :=
  if node.flow = .loop then node.children else node.primary

/-- The children that a node goes to if its condition does not hold. -/
def Numbered.whenFalse (node : Numbered) : List Numbered :=
  if node.flow = .loop then [] else node.alternate

/-- The groups of a graph, in which statements follow each other: the sequence itself, the branches
of conditionals and the bodies of loops. -/
def groups (nodes : List Numbered) : List (List Numbered) :=
  nodes :: (listing nodes).flatMap fun node => [node.whenTrue, node.whenFalse]

/-- The blocks stand next to each other in the group, and no block stands before or after them. -/
def LongestRun (group run : List Numbered) : Prop :=
  run ≠ [] ∧ (∀ node ∈ run, node.flow = .block) ∧
    ∃ before after, group = before ++ run ++ after ∧
      (∀ node ∈ before.getLast?, node.flow ≠ .block) ∧ ∀ node ∈ after.head?, node.flow ≠ .block

theorem whenTrue_of_loop {node : Numbered} (h : node.flow = .loop) : node.whenTrue = node.children :=
  if_pos h

theorem whenFalse_of_loop {node : Numbered} (h : node.flow = .loop) : node.whenFalse = [] := if_pos h

theorem whenTrue_of_not_loop {node : Numbered} (h : node.flow ≠ .loop) : node.whenTrue = node.primary :=
  if_neg h

theorem whenFalse_of_not_loop {node : Numbered} (h : node.flow ≠ .loop) :
    node.whenFalse = node.alternate := if_neg h

theorem whenTrue_append_whenFalse_perm (node : Numbered) :
    (node.whenTrue ++ node.whenFalse).Perm node.children := by
  unfold Numbered.whenTrue Numbered.whenFalse
  split
  · rw [List.append_nil]
  · exact primary_append_alternate_perm node

theorem mem_children_of_mem_whenTrue {node child : Numbered} (h : child ∈ node.whenTrue) :
    child ∈ node.children :=
  (whenTrue_append_whenFalse_perm node).subset (List.mem_append_left _ h)

theorem mem_children_of_mem_whenFalse {node child : Numbered} (h : child ∈ node.whenFalse) :
    child ∈ node.children :=
  (whenTrue_append_whenFalse_perm node).subset (List.mem_append_right _ h)

theorem listing_of_leaves {nodes : List Numbered} (h : ∀ node ∈ nodes, node.children = []) :
    listing nodes = nodes := by
  induction nodes with
  | nil => rfl
  | cons node rest ih =>
    rw [List.forall_mem_cons] at h
    rw [listing_cons, h.1, ih h.2]
    rfl

theorem groups_subset {nodes inner : List Numbered} (h : inner ∈ groups nodes) :
    ∀ group ∈ groups inner, group ∈ groups nodes := by
  have hlisting : ∀ node ∈ listing inner, node ∈ listing nodes := by
    intro node hnode
    rcases List.mem_cons.mp h with rfl | h
    · exact hnode
    · obtain ⟨outer, houter, hinner⟩ := List.mem_flatMap.mp h
      have hchildren : ∀ child ∈ inner, child ∈ outer.children := by
        intro child hchild
        rcases List.mem_pair.mp hinner with rfl | rfl
        · exact mem_children_of_mem_whenTrue hchild
        · exact mem_children_of_mem_whenFalse hchild
      obtain ⟨child, hchild, hin⟩ := mem_listing.mp hnode
      refine (listing_sublist_of_mem houter).subset (mem_listing.mpr ⟨outer, List.mem_cons_self, .inr ?_⟩)
      exact mem_listing.mpr ⟨child, hchildren child hchild, hin⟩
  intro group hgroup
  rcases List.mem_cons.mp hgroup with rfl | hgroup
  · exact h
  · obtain ⟨node, hnode, hin⟩ := List.mem_flatMap.mp hgroup
    exact List.mem_cons_of_mem _ (List.mem_flatMap.mpr ⟨node, hlisting node hnode, hin⟩)

/-! ## Tables -/

/-- The second sequence comes from the first one by merging the longest runs of blocks, in it and in
all groups below it. The table has a line for every node of the second one, with the nodes that were
merged into it. -/
inductive Merges : List Numbered → List Numbered → List (List Numbered × Numbered) → Prop where
  | nil : Merges [] [] []
  | run {first merged : Numbered} {others rest rest' : List Numbered}
      {table : List (List Numbered × Numbered)}
      (blocks : ∀ node ∈ first :: others, node.flow = .block ∧ node.children = [])
      (ends : ∀ node ∈ rest.head?, node.flow ≠ .block)
      (block : merged.flow = .block) (leaf : merged.children = []) (tail : Merges rest rest' table) :
      Merges (first :: others ++ rest) (merged :: rest') ((first :: others, merged) :: table)
  | single {node node' : Numbered} {rest rest' : List Numbered}
      {whenTrue whenFalse table : List (List Numbered × Numbered)}
      (flow : node'.flow = node.flow) (alone : node.flow ≠ .block)
      (onTrue : Merges node.whenTrue node'.whenTrue whenTrue)
      (onFalse : Merges node.whenFalse node'.whenFalse whenFalse) (tail : Merges rest rest' table) :
      Merges (node :: rest) (node' :: rest') (([node], node') :: (whenTrue ++ whenFalse ++ table))

variable {nodes nodes' : List Numbered} {table : List (List Numbered × Numbered)}

/-- Every node of the first graph stands in one line of the table. -/
theorem Merges.listing_perm (h : Merges nodes nodes' table) :
    (table.flatMap (·.1)).Perm (listing nodes) := by
  induction h with
  | nil => exact .nil
  | @run first merged others rest rest' table blocks _ _ _ _ ih =>
    rw [List.flatMap_cons, listing_append, listing_of_leaves fun node hn => (blocks node hn).2]
    exact ih.append_left _
  | @single node node' rest rest' t₁ t₂ table _ _ _ _ _ ihTrue ihFalse ihTail =>
    rw [listing_cons]
    have hinside := Graph.listing_perm (whenTrue_append_whenFalse_perm node)
    rw [listing_append] at hinside
    simp only [List.flatMap_cons, List.flatMap_append]
    exact ((ihTrue.append ihFalse).trans hinside |>.append ihTail).cons node

/-- Every node of the second graph has one line of the table. -/
theorem Merges.listing_perm' (h : Merges nodes nodes' table) :
    (table.map (·.2)).Perm (listing nodes') := by
  induction h with
  | nil => exact .nil
  | @run first merged others rest rest' table _ _ _ leaf _ ih =>
    rw [List.map_cons, listing_cons, leaf]
    exact ih.cons merged
  | @single node node' rest rest' t₁ t₂ table _ _ _ _ _ ihTrue ihFalse ihTail =>
    rw [listing_cons]
    have hinside := Graph.listing_perm (whenTrue_append_whenFalse_perm node')
    rw [listing_append] at hinside
    simp only [List.map_cons, List.map_append]
    exact ((ihTrue.append ihFalse).trans hinside |>.append ihTail).cons node'

/-- The map that the table stands for, from the numbers of the first graph to those of the second. -/
def imageOf (table : List (List Numbered × Numbered)) (id : Nat) : Nat :=
  ((table.find? fun line => line.1.any (·.id = id)).map (·.2.id)).getD 0

theorem imageOf_eq (h : ((table.flatMap (·.1)).map (·.id)).Nodup)
    {line : List Numbered × Numbered} (hline : line ∈ table) {node : Numbered} (hnode : node ∈ line.1) :
    imageOf table node.id = line.2.id := by
  induction table with
  | nil => exact absurd hline List.not_mem_nil
  | cons first rest ih =>
    rw [List.flatMap_cons, List.map_append, List.nodup_append] at h
    obtain ⟨-, hrest, hdisjoint⟩ := h
    rcases List.mem_cons.mp hline with rfl | hline
    · have hfirst : (line.1.any fun n => decide (n.id = node.id)) = true :=
        List.any_eq_true.mpr ⟨node, hnode, decide_eq_true rfl⟩
      simp [imageOf, hfirst]
    · have hfirst : (first.1.any fun n => decide (n.id = node.id)) = false := by
        refine List.any_eq_false.mpr fun n hn => ?_
        have hlater : node.id ∈ (rest.flatMap (·.1)).map (·.id) :=
          List.mem_map_of_mem (List.mem_flatMap.mpr ⟨line, hline, hnode⟩)
        simpa using hdisjoint n.id (List.mem_map_of_mem hn) node.id hlater
      have := ih hrest hline
      simpa [imageOf, hfirst] using this

/-! ## Fibres -/

/-- The nodes that go to a node of the other graph, in the order of the text. -/
def fibreOf (p : Nat → Nat) (nodes : List Numbered) (id : Nat) : List Numbered :=
  (listing nodes).filter fun node => p node.id = id

theorem whenTrue_sublist (node : Numbered) : node.whenTrue.Sublist node.children := by
  unfold Numbered.whenTrue
  split
  · exact .refl _
  · exact List.filter_sublist

theorem whenFalse_sublist (node : Numbered) : node.whenFalse.Sublist node.children := by
  unfold Numbered.whenFalse
  split
  · exact List.nil_sublist _
  · exact List.filter_sublist

/-- The nodes of a line stand in the order of the text. -/
theorem Merges.sublist_listing (h : Merges nodes nodes' table) :
    ∀ line ∈ table, line.1.Sublist (listing nodes) := by
  induction h with
  | nil => exact fun _ h => absurd h List.not_mem_nil
  | @run first merged others rest rest' table blocks _ _ _ _ ih =>
    rw [listing_append, listing_of_leaves fun node hn => (blocks node hn).2]
    refine List.forall_mem_cons.mpr ⟨List.sublist_append_left _ _, fun line hline => ?_⟩
    exact (ih line hline).trans (List.sublist_append_right _ _)
  | @single node node' rest rest' t₁ t₂ table _ _ _ _ _ ihTrue ihFalse ihTail =>
    rw [listing_cons]
    refine List.forall_mem_cons.mpr ⟨(List.nil_sublist _).cons_cons node, fun line hline => ?_⟩
    refine List.Sublist.cons _ ?_
    rcases List.mem_append.mp hline with hline | hline
    · refine List.Sublist.trans ?_ (List.sublist_append_left _ _)
      rcases List.mem_append.mp hline with hline | hline
      · exact (ihTrue line hline).trans (listing_sublist (whenTrue_sublist node))
      · exact (ihFalse line hline).trans (listing_sublist (whenFalse_sublist node))
    · exact (ihTail line hline).trans (List.sublist_append_right _ _)

theorem filter_eq_of_sublist {α : Type} {part list : List α} {q : α → Bool} (h : part.Sublist list)
    (hnodup : list.Nodup) (hq : ∀ x ∈ list, q x = true ↔ x ∈ part) : list.filter q = part := by
  have hperm : (list.filter q).Perm part := by
    refine (List.perm_ext_iff_of_nodup (hnodup.filter q) (hnodup.sublist h)).mpr fun x => ?_
    rw [List.mem_filter]
    exact ⟨fun ⟨hx, hqx⟩ => (hq x hx).mp hqx, fun hx => ⟨h.subset hx, (hq x (h.subset hx)).mpr hx⟩⟩
  have hpart : part.filter q = part :=
    List.filter_eq_self.mpr fun x hx => (hq x (h.subset hx)).mpr hx
  exact ((hpart ▸ h.filter q).eq_of_length hperm.length_eq.symm).symm

/-- What goes together: a node that is no block by itself, or a longest run of blocks of some group. -/
def GoesTogether (nodes part : List Numbered) : Prop :=
  (∃ node, part = [node] ∧ node.flow ≠ .block) ∨ ∃ group ∈ groups nodes, LongestRun group part

theorem GoesTogether.of_group {nodes inner part : List Numbered} (h : GoesTogether inner part)
    (hinner : inner ∈ groups nodes) : GoesTogether nodes part :=
  h.imp_right fun ⟨group, hgroup, hrun⟩ => ⟨group, groups_subset hinner group hgroup, hrun⟩

theorem GoesTogether.ne_nil {nodes part : List Numbered} (h : GoesTogether nodes part) : part ≠ [] := by
  rcases h with ⟨node, rfl, -⟩ | ⟨group, -, hne, -, -⟩
  · exact List.cons_ne_nil _ _
  · exact hne

/-- The statement is about a sequence with something before it, so that the rest of a sequence counts
as a part of it. -/
theorem Merges.goesTogether_append (h : Merges nodes nodes' table) (before : List Numbered)
    (hbefore : (∀ node ∈ before.getLast?, node.flow ≠ .block) ∨
      ∀ node ∈ nodes.head?, node.flow ≠ .block) :
    ∀ line ∈ table, GoesTogether (before ++ nodes) line.1 := by
  induction h generalizing before with
  | nil => exact fun _ h => absurd h List.not_mem_nil
  | @run first merged others rest rest' table blocks ends _ _ _ ih =>
    refine List.forall_mem_cons.mpr ⟨.inr ⟨_, List.mem_cons_self, ?_⟩, fun line hline => ?_⟩
    · refine ⟨List.cons_ne_nil _ _, fun node hn => (blocks node hn).1, before, rest, ?_, ?_, ends⟩
      · rw [List.append_assoc]
      · exact hbefore.resolve_right fun h => h first rfl (blocks first List.mem_cons_self).1
    · rw [← List.append_assoc]
      exact ih (before ++ first :: others) (.inr ends) line hline
  | @single node node' rest rest' t₁ t₂ table _ alone _ _ _ ihTrue ihFalse ihTail =>
    have hnode : node ∈ listing (before ++ node :: rest) := by
      rw [listing_append, listing_cons]
      exact List.mem_append_right _ List.mem_cons_self
    refine List.forall_mem_cons.mpr ⟨.inl ⟨node, rfl, alone⟩, fun line hline => ?_⟩
    rcases List.mem_append.mp hline with hline | hline
    · rcases List.mem_append.mp hline with hline | hline
      · refine (ihTrue [] (.inl nofun) line hline).of_group ?_
        exact List.mem_cons_of_mem _ (List.mem_flatMap.mpr ⟨node, hnode, by simp⟩)
      · refine (ihFalse [] (.inl nofun) line hline).of_group ?_
        exact List.mem_cons_of_mem _ (List.mem_flatMap.mpr ⟨node, hnode, by simp⟩)
    · rw [← List.singleton_append, ← List.append_assoc]
      exact ihTail (before ++ [node]) (.inl (by simpa using alone)) line hline

theorem Merges.nodup_sources (h : Merges nodes nodes' table) (hids : (ids nodes).Nodup) :
    ((table.flatMap (·.1)).map (·.id)).Nodup :=
  (h.listing_perm.map Numbered.id).nodup_iff.mpr hids

theorem Merges.nodup_targets (h : Merges nodes nodes' table) (hids : (ids nodes').Nodup) :
    (table.map (·.2.id)).Nodup := by
  have hnodup := (h.listing_perm'.map Numbered.id).nodup_iff.mpr hids
  rwa [List.map_map] at hnodup

/-- The fibres of the map are the lines of the table. -/
theorem fibreOf_eq (h : Merges nodes nodes' table) (hids : (ids nodes).Nodup) (hids' : (ids nodes').Nodup)
    {line : List Numbered × Numbered} (hline : line ∈ table) :
    fibreOf (imageOf table) nodes line.2.id = line.1 := by
  have hsource := h.nodup_sources hids
  have htarget := h.nodup_targets hids'
  refine filter_eq_of_sublist (h.sublist_listing line hline) (List.Nodup.of_map _ hids) fun node hnode => ?_
  rw [decide_eq_true_iff]
  constructor
  · intro himage
    obtain ⟨other, hother, hin⟩ := List.mem_flatMap.mp (h.listing_perm.mem_iff.mpr hnode)
    have hsame : other.2.id = line.2.id := (imageOf_eq hsource hother hin).symm.trans himage
    rwa [← List.inj_on_of_nodup_map htarget hother hline hsame]
  · exact imageOf_eq hsource hline

/-- Every fibre is a line of the table. -/
theorem exists_line_of_mem_ids (h : Merges nodes nodes' table) (hids : (ids nodes).Nodup)
    (hids' : (ids nodes').Nodup) {id' : Nat} (hid' : id' ∈ ids nodes') :
    ∃ line ∈ table, line.2.id = id' ∧ fibreOf (imageOf table) nodes id' = line.1 := by
  obtain ⟨node', hnode', rfl⟩ := mem_ids.mp hid'
  obtain ⟨line, hline, rfl⟩ := List.mem_map.mp (h.listing_perm'.mem_iff.mpr hnode')
  exact ⟨line, hline, rfl, fibreOf_eq h hids hids' hline⟩

end FlowPath.Graph
