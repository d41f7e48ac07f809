import Mathlib.Data.List.Forall2
import Mathlib.Data.List.Nodup
import Mathlib.Data.List.Pairwise
import FlowPath.Proofs.Expr.Layout

/-!
# Tables list trees in post-order

A tree that is laid out in a table is listed in post-order: row by row, the table holds the nodes of the tree,
each after the nodes below it (`lists_table`). A new row stands for a node whose children are the last trees
of the table, and these become one tree. What is kept on the way is `Table.Lists`: the rows are the nodes in
post-order, with their heights and their stretches of text, and every row is referred to once or is the root
of a tree.
-/

namespace FlowPath

namespace Expr

variable {α : Type}

mutual

/-- The nodes of a tree, each after the nodes below it, and these in the order of the text. -/
def postorder : Expr α → List (Expr α)
  | .missing note => [.missing note]
  | .number note value => [.number note value]
  | .string note value => [.string note value]
  | .boolean note value => [.boolean note value]
  | .identifier note name => [.identifier note name]
  | .array note elements => postorderAll elements ++ [.array note elements]
  | .element note object index => object.postorder ++ index.postorder ++ [.element note object index]
  | .property note object name => object.postorder ++ [.property note object name]
  | .unary note operator operand => operand.postorder ++ [.unary note operator operand]
  | .binary note operator left right =>
    left.postorder ++ right.postorder ++ [.binary note operator left right]
  | .conditional note condition whenTrue whenFalse =>
    condition.postorder ++ whenTrue.postorder ++ whenFalse.postorder ++
      [.conditional note condition whenTrue whenFalse]
  | .assign note operator target value =>
    target.postorder ++ value.postorder ++ [.assign note operator target value]

def postorderAll : List (Expr α) → List (Expr α)
  | [] => []
  | e :: rest => e.postorder ++ postorderAll rest

end

theorem postorderAll_eq_flatMap (elements : List (Expr α)) : postorderAll elements = elements.flatMap postorder := by
  induction elements with
  | nil => rfl
  | cons e rest ih => rw [postorderAll, ih, List.flatMap_cons]

theorem postorder_eq (e : Expr α) : e.postorder = e.children.flatMap postorder ++ [e] := by
  cases e <;> simp [postorder, children, postorderAll_eq_flatMap]

theorem forall_mem_postorder_iff {P : Expr α → Prop} {e : Expr α} :
    (∀ node ∈ e.postorder, P node) ↔ P e ∧ ∀ child ∈ e.children, ∀ node ∈ child.postorder, P node := by
  rw [postorder_eq, List.forall_mem_append, List.forall_mem_singleton, List.forall_mem_flatMap, and_comm]

/-- The nodes below a node are nodes of the tree. -/
theorem postorder_subset {e node : Expr α} (h : node ∈ e.postorder) : node.postorder ⊆ e.postorder := by
  induction e using induction with
  | node e ih =>
    rw [postorder_eq e] at h ⊢
    rcases List.mem_append.mp h with hbelow | hself
    · obtain ⟨child, hchild, hnode⟩ := List.mem_flatMap.mp hbelow
      exact fun other hother =>
        List.mem_append_left _ (List.mem_flatMap.mpr ⟨child, hchild, ih child hchild hnode hother⟩)
    · rw [List.mem_singleton.mp hself, postorder_eq e]
      exact List.Subset.refl _

theorem postorder_bare (e : Expr α) : e.bare.postorder = e.postorder.map bare := by
  induction e using induction with
  | node e ih =>
    have hchildren : (e.children.map bare).flatMap postorder = (e.children.flatMap postorder).map bare := by
      rw [List.flatMap_map, List.map_flatMap]
      exact List.flatMap_congr ih
    rw [postorder_eq, children_bare, hchildren, postorder_eq e, List.map_append, List.map_singleton]

theorem highest_map_height (elements : List (Expr α)) : highest (elements.map height) = heightAll elements := by
  induction elements with
  | nil => rfl
  | cons e rest ih => rw [List.map_cons, highest_cons, heightAll, ih]

end Expr

namespace Table

variable {table : Table} {row : Nat} {entry : Entry} {span : Span} {node : Expr Place}

/-! ## New rows -/

theorem size_push (table : Table) (entry : Entry) (span : Span) : (table.push entry span).size = table.size + 1 := by
  simp [size, push]

theorem rows_push_of_lt (h : row < table.size) : (table.push entry span).rows[row]? = table.rows[row]? := by
  have hne : row ≠ table.rows.size := Nat.ne_of_lt h
  rw [push, Array.getElem?_push, if_neg hne]

theorem span_push_of_lt (h : row < table.size) : (table.push entry span).span row = table.span row := by
  rw [Table.span, rows_push_of_lt h, Table.span]

theorem height_push_of_lt (h : row < table.size) : (table.push entry span).height row = table.height row := by
  rw [Table.height, rows_push_of_lt h, Table.height]

theorem span_push_size : (table.push entry span).span table.size = span := by
  simp [Table.span, push, size]

theorem height_push_size :
    (table.push entry span).height table.size = 1 + Expr.highest (entry.children.map table.height) := by
  simp [Table.height, push, size]

/-- The rows that a row refers to; a missing row refers to none. -/
def children (table : Table) (row : Nat) : List Nat := ((table.entry? row).map Entry.children).getD []

theorem children_push_of_lt (h : row < table.size) : (table.push entry span).children row = table.children row := by
  rw [children, Table.entry?, rows_push_of_lt h, children, Table.entry?]

theorem children_push_size : (table.push entry span).children table.size = entry.children := by
  rw [children, entry?_push_size, Option.map_some, Option.getD_some]

/-- All references of the table, row by row. -/
def references (table : Table) : List Nat := (List.range table.size).flatMap table.children

theorem references_push : (table.push entry span).references = table.references ++ entry.children := by
  rw [references, size_push, List.range_succ, List.flatMap_append, List.flatMap_singleton, children_push_size,
    List.flatMap_congr fun row hrow => children_push_of_lt (List.mem_range.mp hrow), references]

/-! ## Rows of nodes -/

/-- The row stands for the node: it has the tree of the node, the height of that tree and the node's stretch of
text, and it refers to rows before it, which have the stretches of the node's children. -/
structure Has (table : Table) (row : Nat) (node : Expr Place) : Prop where
  holds : table.Holds row node.bare
  height_eq : table.height row = node.bare.height
  span_eq : table.span row = node.note.span
  children_lt : ∀ child ∈ table.children row, child < row
  spans_eq : (table.children row).map table.span = node.children.map fun child => child.note.span

theorem Has.push (h : table.Has row node) : (table.push entry span).Has row node := by
  have hinside := h.holds.inside
  have hchildren : (table.push entry span).children row = table.children row := children_push_of_lt hinside
  refine ⟨h.holds.mono extends_push, ?_, ?_, ?_, ?_⟩
  · rw [height_push_of_lt hinside, h.height_eq]
  · rw [span_push_of_lt hinside, h.span_eq]
  · rw [hchildren]
    exact h.children_lt
  · rw [hchildren, ← h.spans_eq]
    exact List.map_congr_left fun child hchild => span_push_of_lt (Nat.lt_trans (h.children_lt child hchild) hinside)

section Forall

variable {rows : List Nat} {nodes : List (Expr Place)}

theorem map_eq_of_forall₂ {β : Type} {f : Nat → β} {g : Expr Place → β} (h : List.Forall₂ table.Has rows nodes)
    (hfg : ∀ row node, table.Has row node → f row = g node) : rows.map f = nodes.map g := by
  induction h with
  | nil => rfl
  | cons hhas _ ih => rw [List.map_cons, List.map_cons, hfg _ _ hhas, ih]

theorem lt_size_of_forall₂ (h : List.Forall₂ table.Has rows nodes) : ∀ row ∈ rows, row < table.size := by
  induction h with
  | nil => exact List.forall_mem_nil _
  | cons hhas _ ih => exact List.forall_mem_cons.mpr ⟨hhas.holds.inside, ih⟩

end Forall

/-- The entry is that of the node, if it refers to rows with the trees of the node's children. -/
def Makes (entry : Entry) (node : Expr Place) : Prop :=
  ∀ tree : Nat → Expr Unit, entry.children.map tree = node.children.map Expr.bare → treeOf tree entry = node.bare

/-- A new row stands for a node, if the rows that it refers to stand for the node's children. -/
theorem has_push (hchildren : List.Forall₂ table.Has entry.children node.children) (hmakes : Makes entry node) :
    (table.push entry node.note.span).Has table.size node := by
  have hinside := lt_size_of_forall₂ hchildren
  refine ⟨holds_push fun larger hlarger fuel hfuel => hmakes _ ?_, ?_, span_push_size, ?_, ?_⟩
  · exact map_eq_of_forall₂ hchildren fun row child hhas => hhas.holds.tree_eq hlarger hfuel
  · have hheights := map_eq_of_forall₂ hchildren fun row child hhas => hhas.height_eq
    rw [height_push_size, hheights, Expr.height_eq, Expr.children_bare, ← Expr.highest_map_height, List.map_map]
    rfl
  · rw [children_push_size]
    exact hinside
  · rw [children_push_size, ← map_eq_of_forall₂ hchildren fun row child hhas => hhas.span_eq]
    exact List.map_congr_left fun child hchild => span_push_of_lt (hinside child hchild)

/-! ## Lists of trees -/

/-- The table lists the trees in post-order. The roots stand for the trees, the rows for the nodes of the trees
one after the other, and every row is referred to once or is a root. -/
structure Lists (table : Table) (trees : List (Expr Place)) (roots : List Nat) : Prop where
  stand : List.Forall₂ table.Has roots trees
  nodes : List.Forall₂ table.Has (List.range table.size) (trees.flatMap Expr.postorder)
  once : (table.references ++ roots).Perm (List.range table.size)

theorem lists_empty : Lists {} [] [] where
  stand := .nil
  nodes := .nil
  once := .refl _

/-- A row over the last trees makes them one tree. -/
theorem Lists.push {done : List (Expr Place)} {before : List Nat}
    (h : table.Lists (done ++ node.children) (before ++ entry.children))
    (hlength : entry.children.length = node.children.length) (hmakes : Makes entry node) :
    (table.push entry node.note.span).Lists (done ++ [node]) (before ++ [table.size]) := by
  have hbefore : done.length = before.length := by
    have hlengths := h.stand.length_eq
    rw [List.length_append, List.length_append] at hlengths
    omega
  have hdone := List.forall₂_take_append _ _ _ h.stand
  have hchildren := List.forall₂_drop_append _ _ _ h.stand
  rw [hbefore, List.take_left] at hdone
  rw [hbefore, List.drop_left] at hchildren
  have hnew := has_push hchildren hmakes
  refine ⟨List.rel_append (hdone.imp fun _ _ => Has.push) (.cons hnew .nil), ?_, ?_⟩
  · have hnodes : (done ++ [node]).flatMap Expr.postorder =
        (done ++ node.children).flatMap Expr.postorder ++ [node] := by
      rw [List.flatMap_append, List.flatMap_singleton, Expr.postorder_eq, List.flatMap_append, List.append_assoc]
    rw [size_push, List.range_succ, hnodes]
    exact List.rel_append (h.nodes.imp fun _ _ => Has.push) (.cons hnew .nil)
  · rw [references_push, size_push, List.range_succ, ← List.append_assoc]
    refine List.Perm.append_right _ (.trans ?_ h.once)
    rw [List.append_assoc]
    exact List.Perm.append_left _ List.perm_append_comm

/-! ## One tree -/

/-- The table lists a tree in post-order, with the root in the last row. Rows refer to rows before them only, to
each of them at most once, and every row but the root is referred to by exactly one other row. -/
structure IsPostorder (table : Table) (root : Nat) (tree : Expr Unit) : Prop where
  unfold_eq : (List.range table.size).map table.unfold = tree.postorder
  root_last : root + 1 = table.size
  children_lt : ∀ row, ∀ child ∈ table.children row, child < row
  children_nodup : ∀ row, (table.children row).Nodup
  one_parent : ∀ row < root, ∃! parent, row ∈ table.children parent

/-- The rows before the root have the trees below it. -/
theorem IsPostorder.unfold_below_root {root : Nat} {tree : Expr Unit} (h : table.IsPostorder root tree) :
    (List.range root).map table.unfold = tree.children.flatMap Expr.postorder := by
  have hunfold := h.unfold_eq
  rw [← h.root_last, List.range_succ, List.map_append, Expr.postorder_eq] at hunfold
  exact (List.append_inj' hunfold rfl).1

theorem lt_size_of_mem_children {child : Nat} (h : child ∈ table.children row) : row < table.size := by
  rw [lt_size_iff, ← Option.ne_none_iff_exists']
  intro hnone
  rw [children, hnone] at h
  cases h

section

variable {tree : Expr Place} {root : Nat}

/-- What holds of all rows that stand for nodes holds of the rows of the table. -/
theorem Lists.has_of_lt (h : table.Lists [tree] [root]) (hrow : row < table.size) :
    ∃ node ∈ tree.postorder, table.Has row node := by
  have hnodes := h.nodes
  rw [List.flatMap_singleton] at hnodes
  obtain ⟨hlength, hget⟩ := List.forall₂_iff_get.mp hnodes
  have hrange : row < (List.range table.size).length := by rwa [List.length_range]
  have hhas := hget row hrange (hlength ▸ hrange)
  rw [List.get_eq_getElem, List.getElem_range] at hhas
  exact ⟨_, List.get_mem _ _, hhas⟩

theorem Lists.references_perm (h : table.Lists [tree] [root]) (hroot : root + 1 = table.size) :
    table.references.Perm (List.range root) := by
  have honce := h.once
  rw [← hroot, List.range_succ] at honce
  exact (List.perm_append_right_iff _).mp honce

theorem Lists.isPostorder (h : table.Lists [tree] [root]) (hroot : root + 1 = table.size) :
    table.IsPostorder root tree.bare := by
  have hperm := h.references_perm hroot
  obtain ⟨hnodup, hapart⟩ := List.nodup_flatMap.mp (hperm.nodup_iff.mpr List.nodup_range)
  have hparent {row child : Nat} (hchild : child ∈ table.children row) : row ∈ List.range table.size :=
    List.mem_range.mpr (lt_size_of_mem_children hchild)
  refine ⟨?_, hroot, fun row child hchild => ?_, fun row => ?_, fun row hrow => ?_⟩
  · rw [Expr.postorder_bare, ← List.flatMap_singleton Expr.postorder tree]
    exact map_eq_of_forall₂ h.nodes fun row node hhas => hhas.holds.tree_eq (.refl _) (Nat.le_refl _)
  · obtain ⟨node, -, hhas⟩ := h.has_of_lt (lt_size_of_mem_children hchild)
    exact hhas.children_lt child hchild
  · by_cases hrow : row ∈ List.range table.size
    · exact hnodup row hrow
    · rw [List.eq_nil_iff_forall_not_mem.mpr fun child hchild => hrow (hparent hchild)]
      exact List.nodup_nil
  · have hmem : row ∈ table.references := hperm.mem_iff.mpr (List.mem_range.mpr hrow)
    obtain ⟨parent, hmemParent, hrowParent⟩ := List.mem_flatMap.mp hmem
    refine ⟨parent, hrowParent, fun other hrowOther => ?_⟩
    -- Two rows that refer to the same one would make it occur twice in the references.
    by_contra hne
    have hsymm : Std.Symm (Function.onFun List.Disjoint table.children) := ⟨fun _ _ => List.disjoint_symm⟩
    exact hapart.forall (hparent hrowOther) hmemParent hne hrowOther hrowParent

end

end Table

namespace Expr

open Table (Makes)

/-! ## Trees laid out -/

/-- The entry of the root, from the rows of the trees below it. A missing tree has none. -/
def asEntry {α : Type} : Expr α → List Nat → Option Entry
  | .number _ value, [] => some (.number value)
  | .string _ value, [] => some (.string value)
  | .boolean _ value, [] => some (.boolean value)
  | .identifier _ name, [] => some (.identifier name)
  | .array _ _, rows => some (.array rows)
  | .element _ _ _, [object, index] => some (.element object index)
  | .property _ _ name, [object] => some (.property object name)
  | .unary _ operator _, [operand] => some (.unary operator operand)
  | .binary _ operator _ _, [left, right] => some (.binary operator left right)
  | .conditional _ _ _ _, [condition, whenTrue, whenFalse] => some (.conditional condition whenTrue whenFalse)
  | .assign _ operator _ _, [target, value] => some (.assign operator target value)
  | _, _ => none

section

variable {e : Expr Place} {rows : List Nat} {entry : Entry}

theorem children_of_asEntry (h : e.asEntry rows = some entry) : entry.children = rows := by
  unfold asEntry at h
  split at h <;> cases h <;> rfl

theorem full_of_asEntry (h : e.asEntry rows = some entry) (hchildren : ∀ child ∈ e.children, child.full = true) :
    e.full = true := by
  unfold asEntry at h
  split at h
  case h_5 => exact fullAll_iff.mpr hchildren
  case h_12 => cases h
  all_goals simp_all [full, children]

theorem makes_of_asEntry (h : e.asEntry rows = some entry) : Makes entry e := by
  intro tree htrees
  rw [children_of_asEntry h] at htrees
  unfold asEntry at h
  split at h <;> cases h
  case h_5 =>
    rw [Table.treeOf, bare, bareAll_eq_map]
    exact congrArg (array ()) htrees
  all_goals simp_all [Table.treeOf, bare, children]

/-- Every node is laid out in the same way: its children one after the other, and then a row that refers to
them. -/
theorem addTo_of_asEntry {table : Table} (h : e.asEntry (addAllTo e.children table).2 = some entry) :
    e.addTo table = (addAllTo e.children table).1.add entry e.note.span := by
  cases e with
  | missing => cases h
  | _ =>
    obtain rfl := Option.some.inj h
    rfl

theorem exists_asEntry (hfull : e.full = true) (table : Table) :
    ∃ entry, e.asEntry (addAllTo e.children table).2 = some entry := by
  cases e with
  | missing => cases hfull
  | _ => exact ⟨_, rfl⟩

end

theorem length_addAllTo (elements : List (Expr Place)) (table : Table) :
    (addAllTo elements table).2.length = elements.length := by
  induction elements generalizing table with
  | nil => rfl
  | cons e rest ih => exact congrArg (· + 1) (ih _)

/-- Laying the tree out adds it to the trees that the table lists. -/
def AddsTo (e : Expr Place) : Prop :=
  ∀ (table : Table) (done : List (Expr Place)) (before : List Nat), table.Lists done before →
    (e.addTo table).1.Lists (done ++ [e]) (before ++ [(e.addTo table).2])

theorem lists_addAllTo {elements : List (Expr Place)} (h : ∀ e ∈ elements, e.AddsTo) {table : Table}
    {done : List (Expr Place)} {before : List Nat} (htable : table.Lists done before) :
    (addAllTo elements table).1.Lists (done ++ elements) (before ++ (addAllTo elements table).2) := by
  induction elements generalizing table done before with
  | nil => simpa [addAllTo] using htable
  | cons e rest ih =>
    obtain ⟨hfirst, hrest⟩ := List.forall_mem_cons.mp h
    have hlists := ih hrest (hfirst table done before htable)
    rw [List.append_assoc, List.append_assoc] at hlists
    exact hlists

theorem addsTo {e : Expr Place} (hfull : e.full = true) : e.AddsTo := by
  induction e using induction with
  | node e ih =>
    intro table done before htable
    obtain ⟨entry, hentry⟩ := exists_asEntry hfull table
    have hrows := children_of_asEntry hentry
    have hlists := lists_addAllTo (fun child hchild => ih child hchild (full_of_mem_children hfull hchild)) htable
    rw [← hrows] at hlists
    have hlength : entry.children.length = e.children.length := by rw [hrows, length_addAllTo]
    rw [addTo_of_asEntry hentry]
    exact hlists.push hlength (makes_of_asEntry hentry)

/-- The table of a tree without missing parts lists the tree. -/
theorem lists_table {e : Expr Place} (hfull : e.full = true) : e.table.1.Lists [e] [e.table.2] :=
  addsTo hfull {} [] [] Table.lists_empty

theorem table_root_eq {e : Expr Place} (hfull : e.full = true) : e.table.2 + 1 = e.table.1.size := by
  obtain ⟨entry, hentry⟩ := exists_asEntry hfull {}
  rw [table, addTo_of_asEntry hentry]
  exact (Table.size_push _ _ _).symm

theorem isPostorder_table {e : Expr Place} (hfull : e.full = true) : e.table.1.IsPostorder e.table.2 e.bare :=
  (lists_table hfull).isPostorder (table_root_eq hfull)

end Expr

end FlowPath
