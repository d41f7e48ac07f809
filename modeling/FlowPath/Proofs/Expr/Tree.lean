import FlowPath.Expr.Basic

/-!
# Trees without their notes

Two expressions have the same tree when they differ in the notes of their nodes only: `Expr.bare`
takes the notes away. The height of a tree counts the nodes on its longest branch. Properties of trees
are proved by `Expr.induction`, from the children of a node to the node itself.
-/

namespace FlowPath.Expr

variable {α : Type}

theorem induction {motive : Expr α → Prop}
    (node : ∀ e : Expr α, (∀ child ∈ e.children, motive child) → motive e) (e : Expr α) : motive e :=
  have leaf (e : Expr α) (h : e.children = []) : motive e := node e (by simp [h])
  @Expr.rec α motive (fun elements => ∀ child ∈ elements, motive child)
    (fun _ => leaf _ rfl) (fun _ _ => leaf _ rfl) (fun _ _ => leaf _ rfl) (fun _ _ => leaf _ rfl)
    (fun _ _ => leaf _ rfl)
    (fun _ _ elements => node (.array _ _) elements)
    (fun _ _ _ object index => node (.element _ _ _) (by simp [children, object, index]))
    (fun _ _ _ object => node (.property _ _ _) (by simp [children, object]))
    (fun _ _ _ operand => node (.unary _ _ _) (by simp [children, operand]))
    (fun _ _ _ _ left right => node (.binary _ _ _ _) (by simp [children, left, right]))
    (fun _ _ _ _ condition whenTrue whenFalse =>
      node (.conditional _ _ _ _) (by simp [children, condition, whenTrue, whenFalse]))
    (fun _ _ _ _ target value => node (.assign _ _ _ _) (by simp [children, target, value]))
    (fun _ h => absurd h List.not_mem_nil)
    (fun _ _ first rest => List.forall_mem_cons.mpr ⟨first, rest⟩) e

mutual

/-- The tree without its notes. -/
def bare : Expr α → Expr Unit
  | .missing _ => .missing ()
  | .number _ value => .number () value
  | .string _ value => .string () value
  | .boolean _ value => .boolean () value
  | .identifier _ name => .identifier () name
  | .array _ elements => .array () (bareAll elements)
  | .element _ object index => .element () object.bare index.bare
  | .property _ object name => .property () object.bare name
  | .unary _ operator operand => .unary () operator operand.bare
  | .binary _ operator left right => .binary () operator left.bare right.bare
  | .conditional _ condition whenTrue whenFalse =>
    .conditional () condition.bare whenTrue.bare whenFalse.bare
  | .assign _ operator target value => .assign () operator target.bare value.bare

def bareAll : List (Expr α) → List (Expr Unit)
  | [] => []
  | e :: rest => e.bare :: bareAll rest

end

theorem bareAll_eq_map (elements : List (Expr α)) : bareAll elements = elements.map bare := by
  induction elements with
  | nil => rfl
  | cons e rest ih => rw [bareAll, ih, List.map_cons]

mutual

/-- The number of nodes on the longest branch. -/
def height : Expr α → Nat
  | .missing _ | .number _ _ | .string _ _ | .boolean _ _ | .identifier _ _ => 1
  | .array _ elements => 1 + heightAll elements
  | .element _ object index => 1 + max object.height index.height
  | .property _ object _ => 1 + object.height
  | .unary _ _ operand => 1 + operand.height
  | .binary _ _ left right => 1 + max left.height right.height
  | .conditional _ condition whenTrue whenFalse =>
    1 + max (max condition.height whenTrue.height) whenFalse.height
  | .assign _ _ target value => 1 + max target.height value.height

/-- The largest height of some trees. -/
def heightAll : List (Expr α) → Nat
  | [] => 0
  | e :: rest => max e.height (heightAll rest)

end

theorem children_bare (e : Expr α) : e.bare.children = e.children.map bare := by
  cases e <;> simp [bare, children, bareAll_eq_map]

theorem height_eq (e : Expr α) : e.height = 1 + heightAll e.children := by
  cases e <;> simp [height, heightAll, children, Nat.max_assoc]

theorem highest_cons (height : Nat) (heights : List Nat) :
    highest (height :: heights) = max height (highest heights) := by
  rw [highest, List.foldl_cons, Nat.max_comm, highest]
  exact List.foldl_assoc

/-- The height that is noted at the root is that of the tree. -/
def Measured (e : Expr Place) : Prop := e.note.height = e.bare.height

theorem highest_eq_heightAll {elements : List (Expr Place)} (h : ∀ e ∈ elements, e.Measured) :
    highest (elements.map fun e => e.note.height) = heightAll (elements.map bare) := by
  induction elements with
  | nil => rfl
  | cons e rest ih =>
    obtain ⟨hfirst, hrest⟩ := List.forall_mem_cons.mp h
    rw [List.map_cons, highest_cons, List.map_cons, heightAll, hfirst, ih hrest]

mutual

/-- No part of the tree is missing. -/
def full : Expr α → Bool
  | .missing _ => false
  | .number _ _ | .string _ _ | .boolean _ _ | .identifier _ _ => true
  | .array _ elements => fullAll elements
  | .element _ object index => object.full && index.full
  | .property _ object _ => object.full
  | .unary _ _ operand => operand.full
  | .binary _ _ left right => left.full && right.full
  | .conditional _ condition whenTrue whenFalse => condition.full && whenTrue.full && whenFalse.full
  | .assign _ _ target value => target.full && value.full

def fullAll : List (Expr α) → Bool
  | [] => true
  | e :: rest => e.full && fullAll rest

end

theorem fullAll_iff {elements : List (Expr α)} : fullAll elements = true ↔ ∀ e ∈ elements, e.full = true := by
  induction elements with
  | nil => simp [fullAll]
  | cons e rest ih => simp [fullAll, ih]

theorem full_of_mem_children {e child : Expr α} (h : e.full = true) (hchild : child ∈ e.children) :
    child.full = true := by
  cases e with
  | array note elements => exact fullAll_iff.mp h child hchild
  | _ => grind [full, children]

theorem full_bare (e : Expr α) : e.bare.full = e.full := by
  induction e using induction with
  | node e ih =>
    cases e with
    | array note elements =>
      rw [bare, full, full, bareAll_eq_map, Bool.eq_iff_iff, fullAll_iff, fullAll_iff, List.forall_mem_map]
      exact forall_congr' fun e => imp_congr_right fun hmem => by rw [ih e hmem]
    | _ => simp_all [bare, full, children]

end FlowPath.Expr
