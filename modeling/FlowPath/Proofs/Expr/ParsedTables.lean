import FlowPath.Proofs.Expr.Spans
import FlowPath.Proofs.Expr.TableParsing

/-!
# Tables of parsed texts

The table that a text is parsed into lists the nodes of its tree in post-order, with the places that the parser
noted: the heights are those of the trees, and the stretches of text fit together (`Table.Describes`). It has no more
rows than the text has bytes, since every node comes with a token of its own, so row numbers fit wherever offsets
do. A node that assigns stands at the root at most, and only in what was parsed as an assignment.
-/

namespace FlowPath

open Token (body)

/-! ## Nodes that assign -/

def Expr.isAssign {α : Type} : Expr α → Bool
  | .assign .. => true
  | _ => false

def Entry.isAssign : Entry → Bool
  | .assign .. => true
  | _ => false

theorem Table.isAssign_treeOf (tree : Nat → Expr Unit) (entry : Entry) :
    (treeOf tree entry).isAssign = entry.isAssign := by
  cases entry <;> rfl

theorem Table.isAssign_unfold {table : Table} {row : Nat} {entry : Entry} (h : table.entry? row = some entry) :
    (table.unfold row).isAssign = entry.isAssign := by
  have hrow : row < table.size := lt_size_iff.mpr ⟨entry, h⟩
  obtain ⟨fuel, hfuel⟩ := Nat.exists_eq_add_one.mpr (Nat.zero_lt_of_lt hrow)
  rw [unfold, hfuel, unfoldWithin, h]
  exact isAssign_treeOf _ entry

/-! ## Trees of phrases -/

theorem Category.ne_elements_of_next? {category next : Category} (h : category.next? = some next) :
    category ≠ .elements ∧ next ≠ .elements := by
  cases category <;> cases h <;> decide

namespace Phrase

variable {category : Category}

theorem isAssign_postorder (phrase : Phrase category) :
    ∀ node ∈ phrase.tree.postorder, node.isAssign = false := by
  induction phrase with
  | tighter _ _ ih | parenthesized _ _ _ ih | array _ _ _ _ ih => exact ih
  | number | string | trueWord | falseWord | identifier | emptyArray => exact List.forall_mem_singleton.mpr rfl
  | unary _ _ _ ih | property _ _ _ ih | lastElement _ ih =>
    exact Expr.forall_mem_postorder_iff.mpr ⟨rfl, List.forall_mem_singleton.mpr ih⟩
  | binary _ _ _ _ _ ihFirst ihSecond | power _ _ _ ihFirst ihSecond | element _ _ _ _ ihFirst ihSecond =>
    exact Expr.forall_mem_postorder_iff.mpr
      ⟨rfl, List.forall_mem_cons.mpr ⟨ihFirst, List.forall_mem_singleton.mpr ihSecond⟩⟩
  | conditional _ _ _ _ _ ihCondition ihTrue ihFalse =>
    refine Expr.forall_mem_postorder_iff.mpr ⟨rfl, List.forall_mem_cons.mpr ⟨ihCondition, ?_⟩⟩
    exact List.forall_mem_cons.mpr ⟨ihTrue, List.forall_mem_singleton.mpr ihFalse⟩
  | moreElements _ _ _ ihFirst ihOthers =>
    have hothers := (Expr.forall_mem_postorder_iff.mp ihOthers).2
    exact Expr.forall_mem_postorder_iff.mpr ⟨rfl, List.forall_mem_cons.mpr ⟨ihFirst, hothers⟩⟩

/-- Every node of a tree comes with a token of its own. The list that the elements of a list stand for has its
tokens around them. -/
theorem length_postorder_le (phrase : Phrase category) :
    phrase.tree.postorder.length ≤ phrase.tokens.length + if category = .elements then 1 else 0 := by
  induction phrase with
  | tighter hnext inner ih =>
    rw [if_neg (Category.ne_elements_of_next? hnext).2] at ih
    exact Nat.le_add_right_of_le ih
  | @binary category next hnext left operator hoperator right ihLeft ihRight =>
    obtain ⟨hcategory, hne⟩ := Category.ne_elements_of_next? hnext
    rw [if_neg hcategory] at ihLeft ⊢
    rw [if_neg hne] at ihRight
    simp only [tree, tokens, Expr.postorder, List.length_append, List.length_cons, List.length_nil]
    omega
  | moreElements first comma others ihFirst ihOthers =>
    rw [Expr.postorder_eq, List.length_append] at ihOthers
    rw [tree, Expr.postorder_eq, Expr.children, List.flatMap_cons]
    simp only [tokens, List.length_append, List.length_cons, List.length_nil, reduceCtorEq, if_true, if_false]
      at ihFirst ihOthers ⊢
    omega
  | array opening items comma closing ih =>
    simp only [tree, tokens, List.length_append, List.length_cons, List.length_nil, reduceCtorEq, if_true, if_false]
      at ih ⊢
    omega
  | number | string | trueWord | falseWord | identifier => exact Nat.le_refl 1
  | emptyArray => exact Nat.le_succ 1
  | conditional | power | unary | element | property | parenthesized | lastElement =>
    simp only [tree, tokens, Expr.postorder, Expr.postorderAll, List.length_append, List.length_cons,
      List.length_nil, reduceCtorEq, if_true, if_false] at *
    omega

end Phrase

/-! ## Sentences -/

variable {tokens : List Token} {tree : Expr Unit}

theorem Derives.isAssign_eq_false (h : Derives .expression tokens tree) :
    ∀ node ∈ tree.postorder, node.isAssign = false := by
  obtain ⟨phrase, -, rfl⟩ := h
  exact phrase.isAssign_postorder

theorem Derives.full (h : Derives .expression tokens tree) : tree.full = true := by
  obtain ⟨phrase, -, rfl⟩ := h
  exact phrase.full_tree

theorem Derives.length_postorder_le (h : Derives .expression tokens tree) :
    tree.postorder.length ≤ tokens.length := by
  obtain ⟨phrase, rfl, rfl⟩ := h
  exact phrase.length_postorder_le

/-- No node below the root assigns. -/
theorem Assigns.isAssign_eq_false (h : Assigns tokens tree) :
    ∀ node ∈ tree.children.flatMap Expr.postorder, node.isAssign = false := by
  cases h with
  | expression h =>
    intro node hnode
    refine h.isAssign_eq_false node ?_
    rw [Expr.postorder_eq]
    exact List.mem_append_left _ hnode
  | assignment htarget _ hvalue =>
    simp only [Expr.children, List.flatMap_cons, List.flatMap_nil, List.append_nil, List.forall_mem_append]
    exact ⟨htarget.isAssign_eq_false, hvalue.isAssign_eq_false⟩

theorem Assigns.full (h : Assigns tokens tree) : tree.full = true := by
  cases h with
  | expression h => exact h.full
  | assignment htarget _ hvalue => rw [Expr.full, htarget.full, hvalue.full, Bool.and_self]

theorem Assigns.length_postorder_le (h : Assigns tokens tree) : tree.postorder.length ≤ tokens.length := by
  cases h with
  | expression h => exact h.length_postorder_le
  | assignment htarget _ hvalue =>
    have hleft := htarget.length_postorder_le
    have hright := hvalue.length_postorder_le
    simp only [Expr.postorder, List.length_append, List.length_cons, List.length_nil]
    omega

theorem Declares.exists_assigns {word : Option Token.Kind} (h : Declares tokens word tree) :
    ∃ others, Assigns others tree ∧ others.length ≤ tokens.length := by
  cases h with
  | plain h => exact ⟨tokens, h, Nat.le_refl _⟩
  | declared _ h => exact ⟨_, h, Nat.le_succ _⟩

theorem length_body_le (text : String) : (body text).length ≤ text.utf8ByteSize := by
  have hle := (Token.tiles_scan text).length_le
  rw [Token.byteSize_toList] at hle
  rw [body, List.length_dropLast]
  omega

/-- A sentence has no more tokens than the text has bytes. -/
theorem IsSentence.exists_length_le {text : String} {P : List Token → Prop} (h : IsSentence text P) :
    ∃ tokens, P tokens ∧ tokens.length ≤ text.utf8ByteSize := by
  have hbody := length_body_le text
  obtain ⟨tokens, hP, htokens | ⟨semicolon, htokens⟩⟩ := h
  · exact ⟨tokens, hP, htokens ▸ hbody⟩
  · rw [htokens, List.length_append] at hbody
    exact ⟨tokens, hP, Nat.le_of_add_right_le hbody⟩

/-! ## Tables -/

namespace Table

/-- The table describes a tree that was parsed from the text: it lists the nodes in post-order, each with the
place that the parser noted. The height at a row is that of the tree there, and no larger than expressions may
be; the stretch at a row lies in the text, with the stretches of the rows below it one after the other in it. -/
structure Describes (table : Table) (root : Nat) (text : String) (tree : Expr Place) : Prop where
  isPostorder : table.IsPostorder root tree.bare
  place_eq : (List.range table.size).map (fun row => (⟨table.span row, table.height row⟩ : Place)) =
    tree.postorder.map Expr.note
  height_eq : ∀ row < table.size, table.height row = (table.unfold row).height
  height_le : ∀ row < table.size, table.height row ≤ Expr.mostLevels
  covers : ∀ row < table.size, (table.span row).Covers text ((table.children row).map table.span)
  size_le : table.size ≤ text.utf8ByteSize

end Table

namespace Expr

variable {text : String} {e : Expr Place}

theorem size_table (hfull : e.full = true) : e.table.1.size = e.bare.postorder.length := by
  rw [← (isPostorder_table hfull).unfold_eq, List.length_map, List.length_range]

theorem describes_table (hplaced : e.Placed text) (hfull : e.full = true)
    (hsize : e.bare.postorder.length ≤ text.utf8ByteSize) : e.table.1.Describes e.table.2 text e := by
  have hlists := lists_table hfull
  have hrow {row : Nat} (h : row < e.table.1.size) : ∃ node, e.table.1.Has row node ∧ node.Placed text := by
    obtain ⟨node, hmem, hhas⟩ := hlists.has_of_lt h
    exact ⟨node, hhas, hplaced.of_mem hmem⟩
  refine ⟨isPostorder_table hfull, ?_, fun row h => ?_, fun row h => ?_, fun row h => ?_,
    size_table hfull ▸ hsize⟩
  · have hplaces : (List.range e.table.1.size).map
          (fun row => (⟨e.table.1.span row, e.table.1.height row⟩ : Place)) =
        ([e].flatMap postorder).map fun node => ⟨node.note.span, node.bare.height⟩ :=
      Table.map_eq_of_forall₂ hlists.nodes fun row node hhas => by rw [hhas.span_eq, hhas.height_eq]
    rw [hplaces, List.flatMap_singleton]
    refine List.map_congr_left fun node hmem => ?_
    rw [← (hplaced.of_mem hmem).measured]
  · obtain ⟨node, hhas, -⟩ := hrow h
    rw [hhas.height_eq, Table.unfold, hhas.holds.tree_eq (.refl _) (Nat.le_refl _)]
  · obtain ⟨node, hhas, hnode⟩ := hrow h
    rw [hhas.height_eq, ← hnode.measured]
    exact hnode.fits.height_le
  · obtain ⟨node, hhas, hnode⟩ := hrow h
    rw [hhas.span_eq, hhas.spans_eq]
    exact hnode.fits.covers

end Expr

theorem Table.IsPostorder.isAssign_eq_false {table : Table} {root : Nat} {tree : Expr Unit}
    (h : table.IsPostorder root tree) (htree : ∀ node ∈ tree.postorder, node.isAssign = false) {row : Nat}
    {entry : Entry} (hentry : table.entry? row = some entry) : entry.isAssign = false := by
  have hrow : row ∈ List.range table.size := List.mem_range.mpr (lt_size_iff.mpr ⟨entry, hentry⟩)
  rw [← isAssign_unfold hentry]
  exact htree _ (h.unfold_eq ▸ List.mem_map_of_mem hrow)

/-- If no node below the root assigns, a row that assigns is the root. -/
theorem Table.IsPostorder.eq_root_of_isAssign {table : Table} {root : Nat} {tree : Expr Unit}
    (h : table.IsPostorder root tree)
    (htree : ∀ node ∈ tree.children.flatMap Expr.postorder, node.isAssign = false) {row : Nat} {entry : Entry}
    (hentry : table.entry? row = some entry) (hassign : entry.isAssign = true) : row = root := by
  have hrow : row < table.size := lt_size_iff.mpr ⟨entry, hentry⟩
  by_contra hne
  have hlt : row < root := by
    have hlast := h.root_last
    omega
  have hbelow := htree _ (h.unfold_below_root ▸ List.mem_map_of_mem (List.mem_range.mpr hlt))
  rw [isAssign_unfold hentry, hassign] at hbelow
  cases hbelow

/-! ## Parsed texts -/

/-- Adding a row for each node while a text is parsed gives the table of its tree, and that table describes the
tree: the rows are the nodes in post-order, so the root is the last row, rows refer to rows before them, and every row
but the root is referred to by exactly one other; heights are those of the trees and at most 256; stretches of text
lie in each other as the nodes do, in the order of the text, and cut no character in two. The table is no larger than
the text, so that where the offsets of a text fit in a number of so many bits, row numbers do too. No row of a
condition assigns, and in what was parsed as an assignment no row but the root does. -/
theorem parse_table_describes (text : String) (parsed : Parsed) :
    parseExpressionTable text = (parseExpression text).map Parsed.laidOut ∧
    parseAssignmentTable text = (parseAssignment text).map Parsed.laidOut ∧
    (parseExpression text = .ok parsed →
      parsed.root.table.1.Describes parsed.root.table.2 text parsed.root ∧
        ∀ row entry, Table.entry? parsed.root.table.1 row = some entry → entry.isAssign = false) ∧
    (parseAssignment text = .ok parsed →
      parsed.root.table.1.Describes parsed.root.table.2 text parsed.root ∧
        ∀ row entry, Table.entry? parsed.root.table.1 row = some entry → entry.isAssign = true →
          row = parsed.root.table.2) := by
  refine ⟨parseExpressionTable_eq text, parseAssignmentTable_eq text, fun h => ?_, fun h => ?_⟩
  · obtain ⟨tokens, hderives, hbytes⟩ := (isSentence_of_parseExpression h).2.exists_length_le
    have hfull : parsed.root.full = true := by rw [← Expr.full_bare, hderives.full]
    have hdescribes := Expr.describes_table (placed_of_parseExpression h) hfull
      (Nat.le_trans hderives.length_postorder_le hbytes)
    exact ⟨hdescribes, fun row entry => hdescribes.isPostorder.isAssign_eq_false hderives.isAssign_eq_false⟩
  · obtain ⟨tokens, hdeclares, hbytes⟩ := (isSentence_of_parseAssignment h).exists_length_le
    obtain ⟨others, hassigns, hothers⟩ := hdeclares.exists_assigns
    have hfull : parsed.root.full = true := by rw [← Expr.full_bare, hassigns.full]
    have hdescribes := Expr.describes_table (placed_of_parseAssignment h) hfull
      (Nat.le_trans hassigns.length_postorder_le (Nat.le_trans hothers hbytes))
    exact ⟨hdescribes, fun row entry => hdescribes.isPostorder.eq_root_of_isAssign hassigns.isAssign_eq_false⟩

theorem parse_table_describes_parentheses :
    (∃ parsed, parseExpression " (a) ** (-2) < b[ 'é' ].size ? [x, (y),] : z ;" = .ok parsed ∧
      parseExpressionTable " (a) ** (-2) < b[ 'é' ].size ? [x, (y),] : z ;" = .ok parsed.laidOut ∧
      parsed.root.table.1.Describes parsed.root.table.2 " (a) ** (-2) < b[ 'é' ].size ? [x, (y),] : z ;"
        parsed.root) ∧
    (∃ parsed, parseAssignment "let (t) += 'é' + (t);" = .ok parsed ∧
      parseAssignmentTable "let (t) += 'é' + (t);" = .ok parsed.laidOut ∧
      parsed.root.table.1.Describes parsed.root.table.2 "let (t) += 'é' + (t);" parsed.root ∧
      ∀ row entry, Table.entry? parsed.root.table.1 row = some entry → entry.isAssign = true →
        row = parsed.root.table.2) := by
  constructor
  · have hok : (parseExpression " (a) ** (-2) < b[ 'é' ].size ? [x, (y),] : z ;").toOption.isSome = true := by
      decide +kernel
    rcases hparse : parseExpression " (a) ** (-2) < b[ 'é' ].size ? [x, (y),] : z ;" with e | parsed
    · rw [hparse] at hok
      cases hok
    · obtain ⟨htable, -, hdescribes, -⟩ := parse_table_describes " (a) ** (-2) < b[ 'é' ].size ? [x, (y),] : z ;" parsed
      rw [hparse] at htable
      exact ⟨parsed, rfl, htable, (hdescribes hparse).1⟩
  · have hok : (parseAssignment "let (t) += 'é' + (t);").toOption.isSome = true := by decide +kernel
    rcases hparse : parseAssignment "let (t) += 'é' + (t);" with e | parsed
    · rw [hparse] at hok
      cases hok
    · obtain ⟨-, htable, -, hdescribes⟩ := parse_table_describes "let (t) += 'é' + (t);" parsed
      rw [hparse] at htable
      exact ⟨parsed, rfl, htable, hdescribes hparse⟩

end FlowPath
