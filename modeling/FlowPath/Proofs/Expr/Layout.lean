import FlowPath.Expr.Table
import FlowPath.Proofs.Expr.Tree

/-!
# Trees laid out in tables

A tree that is laid out in a table is read back from its row (`unfold_table`). Every row refers to rows
before it only and rows are never changed, so the tree at a row is the same in every larger table.
-/

namespace FlowPath

namespace Table

/-- The larger table has the same rows, and maybe more. -/
def Extends (table larger : Table) : Prop :=
  ∀ index entry, table.entry? index = some entry → larger.entry? index = some entry

/-- In the table and in every larger one, the tree at the row is the given one. -/
structure Holds (table : Table) (row : Nat) (tree : Expr Unit) : Prop where
  inside : row < table.size
  unfold : ∀ larger, table.Extends larger → ∀ fuel, row < fuel → larger.unfoldWithin fuel row = tree

variable {table larger : Table} {row : Nat} {tree : Expr Unit} {entry : Entry} {span : Span}

theorem Extends.refl (table : Table) : table.Extends table := fun _ _ h => h

theorem Extends.trans {t₁ t₂ t₃ : Table} (h : t₁.Extends t₂) (h' : t₂.Extends t₃) : t₁.Extends t₃ :=
  fun index entry hentry => h' index entry (h index entry hentry)

theorem lt_size_iff : row < table.size ↔ ∃ entry, table.entry? row = some entry := by
  rw [← Option.isSome_iff_exists, entry?, Option.isSome_map]
  simp [size]

theorem Holds.tree_eq (h : table.Holds row tree) (hlarger : table.Extends larger) {fuel : Nat}
    (hfuel : table.size ≤ fuel) : larger.unfoldWithin fuel row = tree :=
  h.unfold larger hlarger fuel (Nat.lt_of_lt_of_le h.inside hfuel)

theorem Holds.mono (h : table.Holds row tree) (hlarger : table.Extends larger) : larger.Holds row tree := by
  obtain ⟨entry, hentry⟩ := lt_size_iff.mp h.inside
  exact ⟨lt_size_iff.mpr ⟨entry, hlarger row entry hentry⟩,
    fun largest hlargest => h.unfold largest (hlarger.trans hlargest)⟩

theorem extends_push : table.Extends (table.push entry span) := by
  intro index entry' h
  have hlt : index < table.rows.size := lt_size_iff.mpr ⟨entry', h⟩
  simp only [ entry?, push, Array.getElem?_push, Nat.ne_of_lt hlt, if_false]
  exact h

theorem entry?_push_size : Table.entry? (table.push entry span) table.size = some entry := by
  simp [ entry?, push, size]

/-- A new row has the tree that its entry makes of the rows before it. -/
theorem holds_push (h : ∀ larger, table.Extends larger → ∀ fuel, table.size ≤ fuel →
      treeOf (larger.unfoldWithin fuel) entry = tree) :
    (table.push entry span).Holds table.size tree := by
  refine ⟨lt_size_iff.mpr ⟨entry, entry?_push_size⟩, fun larger hlarger fuel hfuel => ?_⟩
  obtain ⟨fuel, rfl⟩ := Nat.exists_eq_add_one.mpr (Nat.zero_lt_of_lt hfuel)
  rw [unfoldWithin, hlarger _ _ entry?_push_size]
  exact h larger (extends_push.trans hlarger) fuel (Nat.le_of_lt_succ hfuel)

end Table

namespace Expr

open Table (Extends Holds)

/-- Laying the tree out adds rows to a table, and the tree is at the row that is given back. -/
def LaysOut (e : Expr Place) (table : Table) : Prop :=
  table.Extends (e.addTo table).1 ∧ (e.addTo table).1.Holds (e.addTo table).2 e.bare

theorem laysOut_add {table before : Table} {e : Expr Place} {entry : Entry} {span : Span}
    (hresult : e.addTo table = before.add entry span) (hbefore : table.Extends before)
    (htree : ∀ larger, before.Extends larger → ∀ fuel, before.size ≤ fuel →
      Table.treeOf (larger.unfoldWithin fuel) entry = e.bare) : e.LaysOut table := by
  rw [LaysOut, hresult]
  exact ⟨hbefore.trans Table.extends_push, Table.holds_push htree⟩

theorem laysOut_all {elements : List (Expr Place)} (h : ∀ e ∈ elements, ∀ table, e.LaysOut table)
    (table : Table) :
    table.Extends (addAllTo elements table).1 ∧
      ∀ larger, (addAllTo elements table).1.Extends larger → ∀ fuel, (addAllTo elements table).1.size ≤ fuel →
        (addAllTo elements table).2.map (larger.unfoldWithin fuel) = elements.map bare := by
  induction elements generalizing table with
  | nil => exact ⟨.refl table, fun _ _ _ _ => rfl⟩
  | cons e rest ih =>
    obtain ⟨hfirst, hrest⟩ := List.forall_mem_cons.mp h
    obtain ⟨hextends, hholds⟩ := hfirst table
    obtain ⟨hextends', htrees⟩ := ih hrest (e.addTo table).1
    refine ⟨hextends.trans hextends', fun larger hlarger fuel hfuel => ?_⟩
    rw [List.map_cons, ← htrees larger hlarger fuel hfuel, ← (hholds.mono hextends').tree_eq hlarger hfuel]
    rfl

theorem laysOut {e : Expr Place} (hfull : e.full = true) (table : Table) : e.LaysOut table := by
  induction e using induction generalizing table with
  | node e ih =>
    have hchild (child : Expr Place) (hmem : child ∈ e.children) (table : Table) : child.LaysOut table :=
      ih child hmem (full_of_mem_children hfull hmem) table
    cases e with
    | missing => cases hfull
    | number | string | boolean | identifier => exact laysOut_add rfl (.refl table) fun _ _ _ _ => rfl
    | array place elements =>
      obtain ⟨hextends, htrees⟩ := laysOut_all hchild table
      refine laysOut_add rfl hextends fun larger hlarger fuel hfuel => ?_
      rw [Table.treeOf, bare, bareAll_eq_map]
      exact congrArg (array ()) (htrees larger hlarger fuel hfuel)
    | property place object name =>
      obtain ⟨hextends, hholds⟩ := hchild object (by simp [children]) table
      refine laysOut_add rfl hextends fun larger hlarger fuel hfuel => ?_
      rw [Table.treeOf, bare, hholds.tree_eq hlarger hfuel]
    | unary place operator operand =>
      obtain ⟨hextends, hholds⟩ := hchild operand (by simp [children]) table
      refine laysOut_add rfl hextends fun larger hlarger fuel hfuel => ?_
      rw [Table.treeOf, bare, hholds.tree_eq hlarger hfuel]
    | element place first second | binary place operator first second | assign place operator first second =>
      obtain ⟨hextends, hholds⟩ := hchild first (by simp [children]) table
      obtain ⟨hextends', hholds'⟩ := hchild second (by simp [children]) (first.addTo table).1
      refine laysOut_add rfl (hextends.trans hextends') fun larger hlarger fuel hfuel => ?_
      rw [Table.treeOf, bare, (hholds.mono hextends').tree_eq hlarger hfuel, hholds'.tree_eq hlarger hfuel]
    | conditional place condition whenTrue whenFalse =>
      obtain ⟨hextends, hholds⟩ := hchild condition (by simp [children]) table
      obtain ⟨hextends', hholds'⟩ := hchild whenTrue (by simp [children]) (condition.addTo table).1
      obtain ⟨hextends'', hholds''⟩ :=
        hchild whenFalse (by simp [children]) (whenTrue.addTo (condition.addTo table).1).1
      refine laysOut_add rfl (hextends.trans (hextends'.trans hextends'')) fun larger hlarger fuel hfuel => ?_
      rw [Table.treeOf, bare, (hholds.mono (hextends'.trans hextends'')).tree_eq hlarger hfuel,
        (hholds'.mono hextends'').tree_eq hlarger hfuel, hholds''.tree_eq hlarger hfuel]

/-- The table of a tree without missing parts unfolds to the tree. -/
theorem unfold_table {e : Expr Place} (hfull : e.full = true) : e.table.1.unfold e.table.2 = e.bare :=
  (laysOut hfull {}).2.tree_eq (.refl _) (Nat.le_refl _)

end Expr

end FlowPath
