import FlowPath.Proofs.Expr.Layout

/-!
# Evaluation of tables

In a table whose rows refer to rows before them, or to rows that are not there, no chain of references is
cut off: the value at a row is made of the values at the rows that it refers to (`Ordered.evalAt_eq`), and
the tree at a row of the trees there (`Ordered.unfold_eq`). So the value at a row is the value of the tree.

That `&&` and `||` leave their right operand alone cannot be seen. `Expr.evalBoth` evaluates both operands
of every operator and gives the same values, which depend on nothing but the names in the expression.
-/

namespace FlowPath

namespace Expr

variable {α : Type} {e : Expr α} {bindings bindings' : Bindings}

mutual

/-- The value of an expression, where both operands of every binary operator are evaluated. -/
def evalBoth (bindings : Bindings) : Expr α → Value
  | .missing _ => .undefined
  | .number _ value => .number value
  | .string _ value => .string value
  | .boolean _ value => .boolean value
  | .identifier _ name => (bindings name).getD .undefined
  | .array _ elements => .array (evalBothAll bindings elements)
  | .element _ object index => Value.element (object.evalBoth bindings) (index.evalBoth bindings)
  | .property _ object name => Value.property (object.evalBoth bindings) name
  | .unary _ operator operand => Value.applyUnary operator (operand.evalBoth bindings)
  | .binary _ operator left right =>
    Value.applyBinary operator (left.evalBoth bindings) (right.evalBoth bindings)
  | .conditional _ condition whenTrue whenFalse =>
    if (condition.evalBoth bindings).isTrue then whenTrue.evalBoth bindings
    else whenFalse.evalBoth bindings
  | .assign _ _ _ value => value.evalBoth bindings

def evalBothAll (bindings : Bindings) : List (Expr α) → List Value
  | [] => []
  | e :: rest => e.evalBoth bindings :: evalBothAll bindings rest

end

theorem evalBothAll_eq_map (bindings : Bindings) (elements : List (Expr α)) :
    evalBothAll bindings elements = elements.map (evalBoth bindings) := by
  induction elements with
  | nil => rfl
  | cons e rest ih => rw [evalBothAll, ih, List.map_cons]

theorem evalAll_eq_map (bindings : Bindings) (elements : List (Expr α)) :
    evalAll bindings elements = elements.map (eval bindings) := by
  induction elements with
  | nil => rfl
  | cons e rest ih => rw [evalAll, ih, List.map_cons]

mutual

/-- The identifiers in an expression, in the order of the text. -/
def names : Expr α → List String
  | .missing _ | .number _ _ | .string _ _ | .boolean _ _ => []
  | .identifier _ name => [name]
  | .array _ elements => namesAll elements
  | .element _ object index => object.names ++ index.names
  | .property _ object _ => object.names
  | .unary _ _ operand => operand.names
  | .binary _ _ left right => left.names ++ right.names
  | .conditional _ condition whenTrue whenFalse => condition.names ++ whenTrue.names ++ whenFalse.names
  | .assign _ _ target value => target.names ++ value.names

def namesAll : List (Expr α) → List String
  | [] => []
  | e :: rest => e.names ++ namesAll rest

end

theorem namesAll_eq_flatMap (elements : List (Expr α)) : namesAll elements = elements.flatMap names := by
  induction elements with
  | nil => rfl
  | cons e rest ih => rw [namesAll, ih, List.flatMap_cons]

theorem names_subset_of_mem_children {child : Expr α} (h : child ∈ e.children) : child.names ⊆ e.names := by
  intro name hname
  cases e with
  | array note elements =>
    rw [names, namesAll_eq_flatMap]
    exact List.mem_flatMap_of_mem h hname
  | _ => grind [names, children]

/-! ## Both operands -/

/-- An operator that does not look at its right operand has the value that it has with any. -/
theorem shortCircuit_eq_applyBinary (operator : Token.Kind) (left right : Value) :
    (if operator = .andAnd ∧ left.isTrue = false then left
      else if operator = .orOr ∧ left.isTrue = true then left
      else Value.applyBinary operator left right) = Value.applyBinary operator left right := by
  split
  case isTrue h => simp [h.1, h.2, Value.applyBinary]
  case isFalse =>
    split
    case isTrue h => simp [h.1, h.2, Value.applyBinary]
    case isFalse => rfl

theorem eval_eq_evalBoth (bindings : Bindings) (e : Expr α) : e.eval bindings = e.evalBoth bindings := by
  induction e using induction with
  | node e ih =>
    cases e with
    | array note elements =>
      rw [eval, evalBoth, evalAll_eq_map, evalBothAll_eq_map]
      exact congrArg Value.array (List.map_congr_left ih)
    | binary note operator left right =>
      have hleft := ih left (by simp [children])
      have hright := ih right (by simp [children])
      rw [eval, evalBoth, hleft, hright]
      exact shortCircuit_eq_applyBinary operator _ _
    | _ => simp_all [eval, evalBoth, children]

/-- The value depends on what the names in the expression stand for, and on nothing else. -/
theorem evalBoth_congr
    (h : ∀ name ∈ e.names, (bindings name).getD .undefined = (bindings' name).getD .undefined) :
    e.evalBoth bindings = e.evalBoth bindings' := by
  induction e using induction with
  | node e ih =>
    have hchild : ∀ child ∈ e.children, child.evalBoth bindings = child.evalBoth bindings' :=
      fun child hmem => ih child hmem fun name hname => h name (names_subset_of_mem_children hmem hname)
    cases e with
    | identifier note name => exact h name (by simp [names])
    | array note elements =>
      rw [evalBoth, evalBoth, evalBothAll_eq_map, evalBothAll_eq_map]
      exact congrArg Value.array (List.map_congr_left hchild)
    | _ => simp_all [evalBoth, children]

end Expr

namespace Table

variable {table : Table} {row : Nat} {entry : Entry}

/-- Every row refers to rows before it, or to rows that are not there. -/
def Ordered (table : Table) : Prop :=
  ∀ row entry, table.entry? row = some entry →
    ∀ child ∈ entry.children, child < row ∨ table.size ≤ child

theorem entry?_eq_none_iff : table.entry? row = none ↔ table.size ≤ row := by
  rw [← Nat.not_lt, lt_size_iff]
  cases table.entry? row <;> simp

/-- What holds of rows that are not there, and of a row if it holds of those that it refers to, holds of
all rows. -/
theorem Ordered.induction (h : table.Ordered) {motive : Nat → Prop}
    (missing : ∀ row, table.entry? row = none → motive row)
    (present : ∀ row entry, table.entry? row = some entry →
      (∀ child ∈ entry.children, motive child) → motive row) (row : Nat) : motive row := by
  induction row using Nat.strongRecOn with
  | ind row ih =>
    cases hentry : table.entry? row with
    | none => exact missing row hentry
    | some entry =>
      refine present row entry hentry fun child hchild => ?_
      rcases h row entry hentry child hchild with hlt | hle
      · exact ih child hlt
      · exact missing child (entry?_eq_none_iff.mpr hle)

/-! ## Fuel -/

/-- What evaluation and unfolding have in common: a row that is not there gives `bottom`, and so does a row
without fuel; the others are made of what the rows that they refer to give with less fuel. -/
structure Follows {β : Type} (table : Table) (node : (Nat → β) → Entry → β) (bottom : β)
    (within : Nat → Nat → β) : Prop where
  zero : ∀ row, within 0 row = bottom
  succ : ∀ fuel row, within (fuel + 1) row =
    match table.entry? row with
    | none => bottom
    | some entry => node (within fuel) entry
  congr : ∀ (f g : Nat → β) (entry : Entry), (∀ child ∈ entry.children, f child = g child) →
    node f entry = node g entry

section Follows

variable {β : Type} {node : (Nat → β) → Entry → β} {bottom : β} {within : Nat → Nat → β}

theorem Follows.of_none (hfollows : table.Follows node bottom within) (h : table.entry? row = none)
    (fuel : Nat) : within fuel row = bottom := by
  cases fuel with
  | zero => exact hfollows.zero row
  | succ fuel => rw [hfollows.succ, h]

theorem Follows.of_some (hfollows : table.Follows node bottom within) (h : table.entry? row = some entry)
    (fuel : Nat) : within (fuel + 1) row = node (within fuel) entry := by
  rw [hfollows.succ, h]

/-- Fuel for all rows up to a row is enough for the row. -/
theorem Follows.congr_fuel (hfollows : table.Follows node bottom within) (h : table.Ordered)
    {fuel fuel' : Nat} (hfuel : row < table.size → row < fuel) (hfuel' : row < table.size → row < fuel') :
    within fuel row = within fuel' row := by
  induction row using h.induction generalizing fuel fuel' with
  | missing row hnone => rw [hfollows.of_none hnone, hfollows.of_none hnone]
  | present row entry hentry ih =>
    have hsize : row < table.size := lt_size_iff.mpr ⟨entry, hentry⟩
    obtain ⟨fuel, rfl⟩ := Nat.exists_eq_add_one.mpr (Nat.zero_lt_of_lt (hfuel hsize))
    obtain ⟨fuel', rfl⟩ := Nat.exists_eq_add_one.mpr (Nat.zero_lt_of_lt (hfuel' hsize))
    rw [hfollows.of_some hentry, hfollows.of_some hentry]
    refine hfollows.congr _ _ entry fun child hchild => ih child hchild ?_ ?_ <;>
    · intro hinside
      have hlt := (h row entry hentry child hchild).resolve_right (Nat.not_le.mpr hinside)
      omega

/-- With fuel for the whole table, the fuel does not show. -/
theorem Follows.size_eq (hfollows : table.Follows node bottom within) (h : table.Ordered) (row : Nat) :
    within table.size row =
      match table.entry? row with
      | none => bottom
      | some entry => node (within table.size) entry := by
  cases hentry : table.entry? row with
  | none => exact hfollows.of_none hentry _
  | some entry =>
    have hsize : row < table.size := lt_size_iff.mpr ⟨entry, hentry⟩
    calc within table.size row
      _ = within (table.size + 1) row := hfollows.congr_fuel h (fun _ => hsize) fun _ => by omega
      _ = node (within table.size) entry := hfollows.of_some hentry _

end Follows

theorem evalEntry_congr (bindings : Bindings) (f g : Nat → Value) (entry : Entry)
    (h : ∀ child ∈ entry.children, f child = g child) :
    evalEntry bindings f entry = evalEntry bindings g entry := by
  cases entry with
  | array elements => exact congrArg Value.array (List.map_congr_left h)
  | _ => simp_all [evalEntry, Entry.children]

theorem treeOf_congr (f g : Nat → Expr Unit) (entry : Entry)
    (h : ∀ child ∈ entry.children, f child = g child) : treeOf f entry = treeOf g entry := by
  cases entry with
  | array elements => exact congrArg (Expr.array ()) (List.map_congr_left h)
  | _ => simp_all [treeOf, Entry.children]

theorem follows_evalWithin (table : Table) (bindings : Bindings) :
    table.Follows (evalEntry bindings) .undefined (table.evalWithin bindings) :=
  ⟨fun _ => rfl, fun _ _ => rfl, evalEntry_congr bindings⟩

theorem follows_unfoldWithin (table : Table) : table.Follows treeOf (.missing ()) table.unfoldWithin :=
  ⟨fun _ => rfl, fun _ _ => rfl, treeOf_congr⟩

/-- The value at a row is made of the values at the rows that it refers to. -/
theorem Ordered.evalAt_eq (h : table.Ordered) (bindings : Bindings) (row : Nat) :
    table.evalAt bindings row =
      match table.entry? row with
      | none => .undefined
      | some entry => evalEntry bindings (table.evalAt bindings) entry :=
  (table.follows_evalWithin bindings).size_eq h row

/-- The tree at a row is made of the trees at the rows that it refers to. -/
theorem Ordered.unfold_eq (h : table.Ordered) (row : Nat) :
    table.unfold row =
      match table.entry? row with
      | none => .missing ()
      | some entry => treeOf table.unfold entry :=
  table.follows_unfoldWithin.size_eq h row

/-! ## Values of rows and of trees -/

/-- An entry has the value of its tree, if that is so of what it refers to. -/
theorem evalEntry_eq_evalBoth {bindings : Bindings} {value : Nat → Value} {tree : Nat → Expr Unit}
    (h : ∀ child ∈ entry.children, value child = (tree child).evalBoth bindings) :
    evalEntry bindings value entry = (treeOf tree entry).evalBoth bindings := by
  cases entry with
  | array elements =>
    rw [treeOf, Expr.evalBoth, Expr.evalBothAll_eq_map, List.map_map]
    exact congrArg Value.array (List.map_congr_left h)
  | binary operator left right =>
    have hleft := h left (by simp [Entry.children])
    have hright := h right (by simp [Entry.children])
    rw [treeOf, Expr.evalBoth, ← hleft, ← hright]
    -- The two cases in which the right operand is left alone are those where its value is not used.
    simp only [evalEntry]
    split
    case h_1 hfalse => simp [Value.applyBinary, hfalse]
    case h_2 htrue => simp [Value.applyBinary, htrue]
    case h_3 => rfl
  | _ => simp_all [evalEntry, treeOf, Entry.children, Expr.evalBoth]

theorem Ordered.evalAt_eq_evalBoth (h : table.Ordered) (bindings : Bindings) (row : Nat) :
    table.evalAt bindings row = (table.unfold row).evalBoth bindings := by
  induction row using h.induction with
  | missing row hnone =>
    rw [h.evalAt_eq, h.unfold_eq, hnone]
    rfl
  | present row entry hentry ih =>
    rw [h.evalAt_eq, h.unfold_eq, hentry]
    exact evalEntry_eq_evalBoth ih

/-- Evaluating a table is evaluating its trees. Where every row refers to rows before it or to rows that are
not there, the value at a row is the one that the values of the rows below it give, and it is the value of
the tree that the rows below make. The value of that tree is the same whether `&&` and `||` leave out their
right operand or both operands of every operator are evaluated, and it depends on the names in the tree
only. -/
theorem evalAt_unfold {table : Table} (h : table.Ordered) (row : Nat) :
    (∀ bindings, table.evalAt bindings row =
      match table.entry? row with
      | none => .undefined
      | some entry => evalEntry bindings (table.evalAt bindings) entry) ∧
    (table.unfold row =
      match table.entry? row with
      | none => .missing ()
      | some entry => treeOf table.unfold entry) ∧
    (∀ bindings, table.evalAt bindings row = (table.unfold row).evalBoth bindings ∧
      table.evalAt bindings row = (table.unfold row).eval bindings) ∧
    (∀ bindings bindings' : Bindings,
      (∀ name ∈ (table.unfold row).names,
        (bindings name).getD .undefined = (bindings' name).getD .undefined) →
      table.evalAt bindings row = table.evalAt bindings' row) := by
  refine ⟨fun bindings => h.evalAt_eq bindings row, h.unfold_eq row, fun bindings => ?_, ?_⟩
  · have hboth := h.evalAt_eq_evalBoth bindings row
    exact ⟨hboth, hboth.trans (Expr.eval_eq_evalBoth bindings _).symm⟩
  · intro bindings bindings' hnames
    rw [h.evalAt_eq_evalBoth, h.evalAt_eq_evalBoth]
    exact Expr.evalBoth_congr hnames

/-- The rows of `x`, `x && ?` and `(x && ?) || (x && ?)`, where one operand is not there and the two operands
of `||` are the same row. -/
def sharedOperands : Table where
  rows := #[⟨.identifier "x", ⟨{}, 1⟩⟩, ⟨.binary .andAnd 0 9, ⟨{}, 2⟩⟩, ⟨.binary .orOr 1 1, ⟨{}, 3⟩⟩]

theorem ordered_sharedOperands : sharedOperands.Ordered := by
  intro row entry hentry child hchild
  have hlt : row < 3 := lt_size_iff.mpr ⟨entry, hentry⟩
  have hrows : ∀ row < 3, ((sharedOperands.entry? row).all fun entry =>
      entry.children.all fun child => decide (child < row ∨ sharedOperands.size ≤ child)) = true := by
    decide
  have hall := hrows row hlt
  rw [hentry] at hall
  exact of_decide_eq_true (List.all_eq_true.mp hall child hchild)

theorem evalAt_unfold_sharedOperands :
    sharedOperands.Ordered ∧
      (∀ bindings, sharedOperands.evalAt bindings 2 = (sharedOperands.unfold 2).evalBoth bindings) ∧
      sharedOperands.evalAt (fun name => if name = "x" then some (.string "") else none) 2 =
        sharedOperands.evalAt (fun name => if name = "x" then some (.string "") else some .undefined) 2 := by
  have h := evalAt_unfold ordered_sharedOperands 2
  refine ⟨ordered_sharedOperands, fun bindings => (h.2.2.1 bindings).1, h.2.2.2 _ _ fun name _ => ?_⟩
  by_cases hname : name = "x" <;> simp [hname]

end Table

end FlowPath
