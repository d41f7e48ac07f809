import FlowPath.Proofs.Expr.Grammar
import FlowPath.Proofs.Token.Pieces

/-!
# Printed expressions

A `Term` is an expression that can be written down: its numbers are natural numbers, its names are no
reserved words. `Term.text` writes it with a blank between any two tokens. An operand is enclosed in
parentheses only if it binds more loosely than its place allows; `Token.Kind.grouping` says what that is
for the operands of the binary operators.
-/

namespace FlowPath

/-- The operators that stand between two operands. -/
def Token.binaryOperators : List Kind :=
  [.orOr, .andAnd, .equalEqual, .bangEqual, .equalEqualEqual, .bangEqualEqual, .less, .greater, .lessEqual,
   .greaterEqual, .plus, .minus, .star, .slash, .percent, .starStar]

/-- The class of the phrases that an operator makes, and the loosest classes that its operands can have
without parentheses. -/
structure Grouping where
  whole : Category
  left : Category
  right : Category

/-- How the binary operators group: `**` to the right, the others to the left. -/
def Token.Kind.grouping : Token.Kind → Grouping
  | .orOr => ⟨.disjunction, .disjunction, .conjunction⟩
  | .andAnd => ⟨.conjunction, .conjunction, .equality⟩
  | .equalEqual | .bangEqual | .equalEqualEqual | .bangEqualEqual => ⟨.equality, .equality, .relation⟩
  | .less | .greater | .lessEqual | .greaterEqual => ⟨.relation, .relation, .sum⟩
  | .plus | .minus => ⟨.sum, .sum, .product⟩
  | .star | .slash | .percent => ⟨.product, .product, .power⟩
  | _ => ⟨.power, .unary, .power⟩

/-- An expression that can be written down. -/
inductive Term where
  | integer (n : Nat)
  | string (value : String)
  | boolean (truth : Bool)
  | identifier (name : Name)
  | array (elements : List Term)
  | element (object index : Term)
  | property (object : Term) (name : Name)
  | unary (operator : { kind : Token.Kind // kind ∈ Token.unaryOperators }) (operand : Term)
  | binary (operator : { kind : Token.Kind // kind ∈ Token.binaryOperators }) (left right : Term)
  | conditional (condition whenTrue whenFalse : Term)

namespace Term

@[induction_eliminator]
theorem induction {motive : Term → Prop} (integer : ∀ n, motive (.integer n))
    (string : ∀ value, motive (.string value)) (boolean : ∀ truth, motive (.boolean truth))
    (identifier : ∀ name, motive (.identifier name))
    (array : ∀ elements, (∀ e ∈ elements, motive e) → motive (.array elements))
    (element : ∀ object index, motive object → motive index → motive (.element object index))
    (property : ∀ object name, motive object → motive (.property object name))
    (unary : ∀ operator operand, motive operand → motive (.unary operator operand))
    (binary : ∀ operator left right, motive left → motive right → motive (.binary operator left right))
    (conditional : ∀ condition whenTrue whenFalse, motive condition → motive whenTrue → motive whenFalse →
      motive (.conditional condition whenTrue whenFalse))
    (term : Term) : motive term :=
  @Term.rec motive (fun elements => ∀ e ∈ elements, motive e) integer string boolean identifier array element
    property unary binary conditional (fun _ h => absurd h List.not_mem_nil)
    (fun _ _ first rest => List.forall_mem_cons.mpr ⟨first, rest⟩) term

mutual

/-- The tree of the expression. The value of a number is the double nearest to it. -/
def tree : Term → Expr Unit
  | .integer n => .number () (Binary64.ofNat n)
  | .string value => .string () value
  | .boolean truth => .boolean () truth
  | .identifier name => .identifier () name.text
  | .array elements => .array () (treeAll elements)
  | .element object index => .element () object.tree index.tree
  | .property object name => .property () object.tree name.text
  | .unary operator operand => .unary () operator.val operand.tree
  | .binary operator left right => .binary () operator.val left.tree right.tree
  | .conditional condition whenTrue whenFalse =>
    .conditional () condition.tree whenTrue.tree whenFalse.tree

def treeAll : List Term → List (Expr Unit)
  | [] => []
  | e :: rest => e.tree :: treeAll rest

end

/-- How tightly the expression binds. -/
def category : Term → Category
  | .integer _ | .string _ | .boolean _ | .identifier _ | .array _ => .primary
  | .element _ _ | .property _ _ => .access
  | .unary _ _ => .unary
  | .binary operator _ _ => operator.val.grouping.whole
  | .conditional _ _ _ => .expression

/-- Parentheses around an operand that binds more loosely than its place allows. -/
def enclose (place operand : Category) (pieces : List Piece) : List Piece :=
  if place.precedence ≤ operand.precedence then pieces
  else .fixed .openParen :: (pieces ++ [.fixed .closeParen])

mutual

/-- What is written for the expression. -/
def pieces : Term → List Piece
  | .integer n => [.integer n]
  | .string value => [.quoted value]
  | .boolean truth => [.boolean truth]
  | .identifier name => [.name name]
  | .array elements => .fixed .openBracket :: (listed elements ++ [.fixed .closeBracket])
  | .element object index =>
    enclose .access object.category object.pieces ++
      .fixed .openBracket :: (index.pieces ++ [.fixed .closeBracket])
  | .property object name => enclose .access object.category object.pieces ++ [.fixed .dot, .name name]
  | .unary operator operand => .fixed operator.val :: enclose .unary operand.category operand.pieces
  | .binary operator left right =>
    enclose operator.val.grouping.left left.category left.pieces ++
      .fixed operator.val :: enclose operator.val.grouping.right right.category right.pieces
  | .conditional condition whenTrue whenFalse =>
    enclose .disjunction condition.category condition.pieces ++
      .fixed .question :: (whenTrue.pieces ++ .fixed .colon :: whenFalse.pieces)

/-- The elements of a list, with commas in between. -/
def listed : List Term → List Piece
  | [] => []
  | [last] => last.pieces
  | first :: others => first.pieces ++ .fixed .comma :: listed others

end

/-- The text of the expression. -/
def text (term : Term) : String := Piece.join term.pieces

/-! ## Tokens of printed expressions -/

theorem stands_enclose {place operand : Category} {pieces : List Piece}
    (h : ∀ piece ∈ pieces, piece.Stands) : ∀ piece ∈ enclose place operand pieces, piece.Stands := by
  have hopening : (Piece.fixed .openParen).Stands := Piece.stands_symbol (by decide)
  have hclosing : (Piece.fixed .closeParen).Stands := Piece.stands_symbol (by decide)
  unfold enclose
  split
  · exact h
  · simpa [or_imp, forall_and] using ⟨hopening, h, hclosing⟩

theorem stands_listed {elements : List Term} (h : ∀ e ∈ elements, ∀ piece ∈ e.pieces, piece.Stands) :
    ∀ piece ∈ listed elements, piece.Stands := by
  have hcomma : (Piece.fixed .comma).Stands := Piece.stands_symbol (by decide)
  induction elements with
  | nil => simp [listed]
  | cons first others ih =>
    obtain ⟨hfirst, hothers⟩ := List.forall_mem_cons.mp h
    cases others with
    | nil => simpa [listed] using hfirst
    | cons next others =>
      simp only [listed, List.forall_mem_append, List.forall_mem_cons]
      exact ⟨hfirst, hcomma, ih hothers⟩

/-- Every piece of a printed expression is a token of its own. -/
theorem stands_pieces (term : Term) : ∀ piece ∈ term.pieces, piece.Stands := by
  have hsymbol {kind : Token.Kind} (h : kind ∈ Token.symbols) : (Piece.fixed kind).Stands :=
    Piece.stands_symbol h
  have hunary : Token.unaryOperators ⊆ Token.symbols := by decide
  have hbinary : Token.binaryOperators ⊆ Token.symbols := by decide
  induction term with
  | integer n => exact List.forall_mem_singleton.mpr (Piece.stands_integer n)
  | string value => exact List.forall_mem_singleton.mpr (Piece.stands_quoted value)
  | boolean truth => exact List.forall_mem_singleton.mpr (Piece.stands_boolean truth)
  | identifier name => exact List.forall_mem_singleton.mpr (Piece.stands_name name)
  | array elements ih =>
    simp only [pieces, List.forall_mem_cons, List.forall_mem_append]
    exact ⟨hsymbol (by decide), stands_listed ih, hsymbol (by decide), List.forall_mem_nil _⟩
  | element object index ihObject ihIndex =>
    simp only [pieces, List.forall_mem_cons, List.forall_mem_append]
    exact ⟨stands_enclose ihObject, hsymbol (by decide), ihIndex, hsymbol (by decide),
      List.forall_mem_nil _⟩
  | property object name ih =>
    simp only [pieces, List.forall_mem_cons, List.forall_mem_append]
    exact ⟨stands_enclose ih, hsymbol (by decide), Piece.stands_name name, List.forall_mem_nil _⟩
  | unary operator operand ih =>
    exact List.forall_mem_cons.mpr ⟨hsymbol (hunary operator.property), stands_enclose ih⟩
  | binary operator left right ihLeft ihRight =>
    simp only [pieces, List.forall_mem_cons, List.forall_mem_append]
    exact ⟨stands_enclose ihLeft, hsymbol (hbinary operator.property), stands_enclose ihRight⟩
  | conditional condition whenTrue whenFalse ihCondition ihTrue ihFalse =>
    simp only [pieces, List.forall_mem_cons, List.forall_mem_append]
    exact ⟨stands_enclose ihCondition, hsymbol (by decide), ihTrue, hsymbol (by decide), ihFalse⟩

end Term

end FlowPath
