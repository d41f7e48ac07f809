import FlowPath.Proofs.Expr.Language
import FlowPath.Proofs.Expr.Layout
import FlowPath.Proofs.Expr.Printing
import Mathlib.Order.MinMax

/-!
# Printing and parsing

Parsing undoes printing. What is written for an expression is a phrase of the expression's class that
stands for its tree (`Term.spells_pieces`). A descent into that phrase goes at most two levels further down
for every level of the tree, one into the operand and one into its parentheses, so that the limit of the
parser does not matter for trees that are at most half as high.
-/

namespace FlowPath

open Token (Terminal)

/-- Tokens that are written as the pieces are a phrase of the class for the tree, of at most that depth. -/
def Spells (category : Category) (pieces : List Piece) (tree : Expr Unit) (depth : Nat) : Prop :=
  ∀ tokens, List.Forall₂ Piece.Writes pieces tokens →
    ∃ phrase : Phrase category, phrase.tokens = tokens ∧ phrase.tree = tree ∧ phrase.depth ≤ depth

theorem Piece.exists_append_of_writes {front back : List Piece} {tokens : List Token}
    (h : List.Forall₂ Writes (front ++ back) tokens) :
    ∃ first last, tokens = first ++ last ∧ List.Forall₂ Writes front first ∧
      List.Forall₂ Writes back last := by
  induction front generalizing tokens with
  | nil => exact ⟨[], tokens, rfl, .nil, h⟩
  | cons piece front ih =>
    rcases h with _ | ⟨hpiece, hrest⟩
    obtain ⟨first, last, rfl, hfirst, hlast⟩ := ih hrest
    exact ⟨_ :: first, last, rfl, .cons hpiece hfirst, hlast⟩

/-! ## Numbers -/

theorem Decimal.parse?_toDigits (n : Nat) : parse? (Nat.toDigits 10 n) = some ⟨false, n, 0⟩ := by
  have hdigits : ∀ c ∈ Nat.toDigits 10 n, Text.isDigit c = true := fun _ => Text.isDigit_of_mem_toDigits
  have hspan : (Nat.toDigits 10 n ++ []).span Text.isDigit = (Nat.toDigits 10 n, []) :=
    Token.span_append hdigits (by simp)
  have hvalue : valueOfDigits (Nat.toDigits 10 n) = n := Nat.ofDigitChars_ten_toDigits
  have hsign : splitSign (Nat.toDigits 10 n) = (false, Nat.toDigits 10 n) := by
    rcases hcases : Nat.toDigits 10 n with _ | ⟨d, digits⟩
    · rfl
    · have hd : Text.isDigit d = true := hdigits d (hcases ▸ List.mem_cons_self)
      exact Token.splitSign_of_ne (Token.ne_of_isDigit hd rfl) (Token.ne_of_isDigit hd rfl)
  have hsome : (Nat.toDigits 10 n).isEmpty = false := by simp
  rw [List.append_nil] at hspan
  simp only [parse?, hsign, hspan, hsome, splitFraction, exponent?]
  simp [ofPieces, hvalue]

theorem Decimal.toFloat_natural (n : Nat) : toFloat ⟨false, n, 0⟩ = Binary64.ofNat n := by
  unfold toFloat
  split
  case isTrue hzero =>
    obtain rfl : n = 0 := hzero
    rfl
  case isFalse => simp [Binary64.ofNat]

/-! ## Binary operators -/

/-- The grammar has the phrases that the table of groupings tells of. -/
theorem Phrase.exists_binary {kind : Token.Kind} (hkind : kind ∈ Token.binaryOperators)
    (operator : Terminal kind) (left : Phrase kind.grouping.left) (right : Phrase kind.grouping.right) :
    ∃ phrase : Phrase kind.grouping.whole, phrase.tokens = left.tokens ++ operator.val :: right.tokens ∧
      phrase.tree = .binary () kind left.tree right.tree ∧
      phrase.depth = max left.depth (1 + right.depth) := by
  have hgroups : ∀ kind ∈ Token.binaryOperators, kind = .starStar ∨
      kind.grouping.left = kind.grouping.whole ∧ kind.grouping.whole.next? = some kind.grouping.right ∧
        kind ∈ kind.grouping.whole.operators := by decide
  have htree := congrArg (Expr.binary () · left.tree right.tree) operator.property
  rcases hgroups kind hkind with rfl | ⟨hleft, hnext, hmem⟩
  · exact ⟨.power left operator right, rfl, htree, rfl⟩
  · generalize kind.grouping = grouping at left right hleft hnext hmem
    obtain ⟨whole, _, next⟩ := grouping
    dsimp only at left right hleft hnext hmem
    subst hleft
    exact ⟨.binary hnext left operator.val (operator.property.symm ▸ hmem) right, rfl, htree, rfl⟩

namespace Spells

variable {category : Category} {tree : Expr Unit} {pieces : List Piece} {depth : Nat}

theorem mono {depth' : Nat} (h : Spells category pieces tree depth) (hdepth : depth ≤ depth') :
    Spells category pieces tree depth' := by
  intro tokens htokens
  obtain ⟨phrase, rfl, rfl, hphrase⟩ := h tokens htokens
  exact ⟨phrase, rfl, rfl, hphrase.trans hdepth⟩

theorem looser (h : Spells category pieces tree depth) (hcategory : category ≠ .elements) {place : Category}
    (hplace : place.precedence ≤ category.precedence) : Spells place pieces tree depth := by
  intro tokens htokens
  obtain ⟨phrase, rfl, rfl, hphrase⟩ := h tokens htokens
  obtain ⟨phrase', htokens', htree, hdepth⟩ := phrase.exists_looser place hcategory hplace
  exact ⟨phrase', htokens', htree, hdepth ▸ hphrase⟩

theorem toExpression (h : Spells category pieces tree depth) (hcategory : category ≠ .elements) :
    Spells .expression pieces tree depth :=
  h.looser hcategory (Nat.zero_le _)

/-! ## Primaries -/

theorem integer (n : Nat) : Spells .primary [.integer n] (.number () (Binary64.ofNat n)) 1 := by
  intro tokens htokens
  rcases htokens with _ | ⟨htoken, _ | _⟩
  rename_i token
  have hnumeral : Decimal.parse? token.text.toList = some ⟨false, n, 0⟩ := by
    rw [htoken.text, Piece.toList_text_integer, Decimal.parse?_toDigits]
  refine ⟨.number ⟨token, htoken.kind⟩ _ hnumeral, rfl, ?_, Nat.le_refl _⟩
  rw [Phrase.tree, Decimal.toFloat_natural]

theorem quoted (value : String) : Spells .primary [.quoted value] (.string () value) 1 := by
  intro tokens htokens
  rcases htokens with _ | ⟨htoken, _ | _⟩
  exact ⟨.string ⟨_, htoken.kind⟩, rfl, by rw [Phrase.tree, htoken.value]; rfl, Nat.le_refl _⟩

theorem boolean (truth : Bool) : Spells .primary [.boolean truth] (.boolean () truth) 1 := by
  intro tokens htokens
  rcases htokens with _ | ⟨htoken, _ | _⟩
  cases truth with
  | true => exact ⟨.trueWord ⟨_, htoken.kind⟩, rfl, rfl, Nat.le_refl _⟩
  | false => exact ⟨.falseWord ⟨_, htoken.kind⟩, rfl, rfl, Nat.le_refl _⟩

theorem name (name : Name) : Spells .primary [.name name] (.identifier () name.text) 1 := by
  intro tokens htokens
  rcases htokens with _ | ⟨htoken, _ | _⟩
  exact ⟨.identifier ⟨_, htoken.kind⟩, rfl, by rw [Phrase.tree, htoken.text]; rfl, Nat.le_refl _⟩

theorem parenthesized (h : Spells .expression pieces tree depth) :
    Spells .primary (.fixed .openParen :: (pieces ++ [.fixed .closeParen])) tree (1 + depth) := by
  intro tokens htokens
  rcases htokens with _ | ⟨hopening, hrest⟩
  obtain ⟨inner, last, rfl, hinner, hlast⟩ := Piece.exists_append_of_writes hrest
  rcases hlast with _ | ⟨hclosing, _ | _⟩
  obtain ⟨phrase, rfl, rfl, hphrase⟩ := h inner hinner
  exact ⟨.parenthesized ⟨_, hopening.kind⟩ phrase ⟨_, hclosing.kind⟩, rfl, rfl, Nat.add_le_add_left hphrase 1⟩

theorem emptyArray : Spells .primary [.fixed .openBracket, .fixed .closeBracket] (.array () []) 1 := by
  intro tokens htokens
  rcases htokens with _ | ⟨hopening, _ | ⟨hclosing, _ | _⟩⟩
  exact ⟨.emptyArray ⟨_, hopening.kind⟩ ⟨_, hclosing.kind⟩, rfl, rfl, Nat.le_refl _⟩

theorem array (h : Spells .elements pieces tree depth) :
    Spells .primary (.fixed .openBracket :: (pieces ++ [.fixed .closeBracket])) tree (1 + depth) := by
  intro tokens htokens
  rcases htokens with _ | ⟨hopening, hrest⟩
  obtain ⟨items, last, rfl, hitems, hlast⟩ := Piece.exists_append_of_writes hrest
  rcases hlast with _ | ⟨hclosing, _ | _⟩
  obtain ⟨phrase, rfl, rfl, hphrase⟩ := h items hitems
  exact ⟨.array ⟨_, hopening.kind⟩ phrase none ⟨_, hclosing.kind⟩, rfl, rfl, Nat.add_le_add_left hphrase 1⟩

theorem lastElement (h : Spells .expression pieces tree depth) :
    Spells .elements pieces (.array () [tree]) depth := by
  intro tokens htokens
  obtain ⟨phrase, rfl, rfl, hphrase⟩ := h tokens htokens
  exact ⟨.lastElement phrase, rfl, rfl, hphrase⟩

theorem moreElements {others : List Piece} {trees : List (Expr Unit)} {depth' : Nat}
    (h : Spells .expression pieces tree depth) (hothers : Spells .elements others (.array () trees) depth') :
    Spells .elements (pieces ++ .fixed .comma :: others) (.array () (tree :: trees)) (max depth depth') := by
  intro tokens htokens
  obtain ⟨first, last, rfl, hfirst, hlast⟩ := Piece.exists_append_of_writes htokens
  rcases hlast with _ | ⟨hcomma, hlast⟩
  obtain ⟨phrase, rfl, rfl, hphrase⟩ := h first hfirst
  obtain ⟨phrase', rfl, htrees, hphrase'⟩ := hothers _ hlast
  exact ⟨.moreElements phrase ⟨_, hcomma.kind⟩ phrase', rfl, by rw [Phrase.tree, htrees]; rfl,
    max_le_max hphrase hphrase'⟩

/-! ## Operators -/

variable {left right : List Piece} {leftTree rightTree : Expr Unit} {leftDepth rightDepth : Nat}

theorem element (hobject : Spells .access left leftTree leftDepth)
    (hindex : Spells .expression right rightTree rightDepth) :
    Spells .access (left ++ .fixed .openBracket :: (right ++ [.fixed .closeBracket]))
      (.element () leftTree rightTree) (max leftDepth (1 + rightDepth)) := by
  intro tokens htokens
  obtain ⟨first, rest, rfl, hfirst, hrest⟩ := Piece.exists_append_of_writes htokens
  rcases hrest with _ | ⟨hopening, hrest⟩
  obtain ⟨inner, last, rfl, hinner, hlast⟩ := Piece.exists_append_of_writes hrest
  rcases hlast with _ | ⟨hclosing, _ | _⟩
  obtain ⟨object, rfl, rfl, hdepth⟩ := hobject first hfirst
  obtain ⟨index, rfl, rfl, hdepth'⟩ := hindex inner hinner
  exact ⟨.element object ⟨_, hopening.kind⟩ index ⟨_, hclosing.kind⟩, rfl, rfl,
    max_le_max hdepth (Nat.add_le_add_left hdepth' 1)⟩

theorem property (h : Spells .access pieces tree depth) (name : Name) :
    Spells .access (pieces ++ [.fixed .dot, .name name]) (.property () tree name.text) depth := by
  intro tokens htokens
  obtain ⟨first, rest, rfl, hfirst, hrest⟩ := Piece.exists_append_of_writes htokens
  rcases hrest with _ | ⟨hdot, _ | ⟨hname, _ | _⟩⟩
  obtain ⟨object, rfl, rfl, hobject⟩ := h first hfirst
  exact ⟨.property object ⟨_, hdot.kind⟩ ⟨_, hname.kind⟩, rfl, by rw [Phrase.tree, hname.text]; rfl, hobject⟩

theorem unary {operator : Token.Kind} (hoperator : operator ∈ Token.unaryOperators)
    (h : Spells .unary pieces tree depth) :
    Spells .unary (.fixed operator :: pieces) (.unary () operator tree) (1 + depth) := by
  intro tokens htokens
  rcases htokens with _ | ⟨htoken, hrest⟩
  rename_i token rest
  obtain ⟨operand, rfl, rfl, hoperand⟩ := h rest hrest
  have hkind : token.kind = operator := htoken.kind
  refine ⟨.unary token (hkind ▸ hoperator) operand, rfl, ?_, Nat.add_le_add_left hoperand 1⟩
  rw [Phrase.tree, hkind]

theorem binary {operator : Token.Kind} (hoperator : operator ∈ Token.binaryOperators)
    (hleft : Spells operator.grouping.left left leftTree leftDepth)
    (hright : Spells operator.grouping.right right rightTree rightDepth) :
    Spells operator.grouping.whole (left ++ .fixed operator :: right) (.binary () operator leftTree rightTree)
      (max leftDepth (1 + rightDepth)) := by
  intro tokens htokens
  obtain ⟨first, rest, rfl, hfirst, hrest⟩ := Piece.exists_append_of_writes htokens
  rcases hrest with _ | ⟨htoken, hrest⟩
  obtain ⟨left, rfl, rfl, hdepth⟩ := hleft first hfirst
  obtain ⟨right, rfl, rfl, hdepth'⟩ := hright _ hrest
  obtain ⟨phrase, htokens, htree, heq⟩ := Phrase.exists_binary hoperator ⟨_, htoken.kind⟩ left right
  exact ⟨phrase, htokens, htree, heq ▸ max_le_max hdepth (Nat.add_le_add_left hdepth' 1)⟩

theorem conditional {condition : List Piece} {conditionTree : Expr Unit} {conditionDepth : Nat}
    (hcondition : Spells .disjunction condition conditionTree conditionDepth)
    (hleft : Spells .expression left leftTree leftDepth)
    (hright : Spells .expression right rightTree rightDepth) :
    Spells .expression (condition ++ .fixed .question :: (left ++ .fixed .colon :: right))
      (.conditional () conditionTree leftTree rightTree)
      (max conditionDepth (1 + max leftDepth rightDepth)) := by
  intro tokens htokens
  obtain ⟨first, rest, rfl, hfirst, hrest⟩ := Piece.exists_append_of_writes htokens
  rcases hrest with _ | ⟨hquestion, hrest⟩
  obtain ⟨second, third, rfl, hsecond, hthird⟩ := Piece.exists_append_of_writes hrest
  rcases hthird with _ | ⟨hcolon, hthird⟩
  obtain ⟨condition, rfl, rfl, hdepth⟩ := hcondition first hfirst
  obtain ⟨whenTrue, rfl, rfl, htrue⟩ := hleft second hsecond
  obtain ⟨whenFalse, rfl, rfl, hfalse⟩ := hright _ hthird
  exact ⟨.conditional condition ⟨_, hquestion.kind⟩ whenTrue ⟨_, hcolon.kind⟩ whenFalse, rfl, rfl,
    max_le_max hdepth (Nat.add_le_add_left (max_le_max htrue hfalse) 1)⟩

/-! ## Operands in parentheses -/

theorem enclose (h : Spells category pieces tree depth) (hcategory : category ≠ .elements) {place : Category}
    (hplace : place ≠ .elements) : Spells place (Term.enclose place category pieces) tree (1 + depth) := by
  unfold Term.enclose
  split
  case isTrue hle => exact (h.looser hcategory hle).mono (Nat.le_add_left _ _)
  case isFalse =>
    have hprimary : place.precedence ≤ Category.primary.precedence := by
      cases place with
      | elements => contradiction
      | _ => decide
    exact (h.toExpression hcategory).parenthesized.looser (by decide) hprimary

end Spells

namespace Term

theorem grouping_ne_elements (kind : Token.Kind) :
    kind.grouping.whole ≠ .elements ∧ kind.grouping.left ≠ .elements ∧ kind.grouping.right ≠ .elements := by
  cases kind <;> decide

theorem category_ne_elements (term : Term) : term.category ≠ .elements := by
  cases term with
  | binary operator => exact (grouping_ne_elements operator.val).1
  | _ => simp [category]

theorem spells_listed {elements : List Term} (hsome : elements ≠ [])
    (h : ∀ e ∈ elements, Spells .expression e.pieces e.tree (2 * e.tree.height - 1)) :
    Spells .elements (listed elements) (.array () (treeAll elements))
      (2 * Expr.heightAll (treeAll elements) - 1) := by
  induction elements with
  | nil => contradiction
  | cons first others ih =>
    obtain ⟨hfirst, hothers⟩ := List.forall_mem_cons.mp h
    cases others with
    | nil => exact hfirst.lastElement.mono (by simp [Expr.heightAll, treeAll])
    | cons next others =>
      rw [listed, treeAll, Expr.heightAll]
      · exact (hfirst.moreElements (ih (List.cons_ne_nil _ _) hothers)).mono (by omega)
      · exact List.cons_ne_nil _ _

/-- What is written for an expression is a phrase of its class for its tree. -/
theorem spells_pieces (term : Term) :
    Spells term.category term.pieces term.tree (2 * term.tree.height - 1) := by
  have hwhole {term : Term} {depth : Nat} (h : Spells term.category term.pieces term.tree depth) :
      Spells .expression term.pieces term.tree depth :=
    h.toExpression term.category_ne_elements
  -- An operand may take its parentheses as well, which are one more level.
  have hoperand {term : Term} (h : Spells term.category term.pieces term.tree (2 * term.tree.height - 1))
      {place : Category} (hplace : place ≠ .elements) :
      Spells place (enclose place term.category term.pieces) term.tree (2 * term.tree.height) := by
    refine (h.enclose term.category_ne_elements hplace).mono ?_
    have := term.tree.height_eq
    omega
  induction term with
  | integer n => exact .integer n
  | string value => exact .quoted value
  | boolean truth => exact .boolean truth
  | identifier name => exact .name name
  | array elements ih =>
    cases elements with
    | nil => exact .emptyArray
    | cons first others =>
      have hitems := spells_listed (List.cons_ne_nil first others) fun e he => hwhole (ih e he)
      refine hitems.array.mono ?_
      rw [tree, Expr.height]
      omega
  | element object index ihObject ihIndex =>
    refine ((hoperand ihObject (by decide)).element (hwhole ihIndex)).mono ?_
    simp only [tree, Expr.height]
    omega
  | property object name ih =>
    refine ((hoperand ih (by decide)).property name).mono ?_
    simp only [tree, Expr.height]
    omega
  | unary operator operand ih =>
    refine (Spells.unary operator.property (hoperand ih (by decide))).mono ?_
    simp only [tree, Expr.height]
    omega
  | binary operator left right ihLeft ihRight =>
    obtain ⟨-, hleft, hright⟩ := grouping_ne_elements operator.val
    refine (Spells.binary operator.property (hoperand ihLeft hleft) (hoperand ihRight hright)).mono ?_
    simp only [tree, Expr.height]
    omega
  | conditional condition whenTrue whenFalse ihCondition ihTrue ihFalse =>
    refine ((hoperand ihCondition (by decide)).conditional (hwhole ihTrue) (hwhole ihFalse)).mono ?_
    simp only [tree, Expr.height]
    omega

/-- Parsing undoes printing. The text of an expression whose tree is at most 128 nodes high is parsed, and
the table that the result is laid out in unfolds to the same tree. -/
theorem unfold_parse_text (term : Term) (h : term.tree.height ≤ 128) :
    ∃ parsed, parseExpression term.text = .ok parsed ∧
      parsed.root.table.1.unfold parsed.root.table.2 = term.tree := by
  obtain ⟨tokens, last, hscan, hlast, hwrites⟩ := Piece.scan_join term.stands_pieces
  obtain ⟨phrase, rfl, htree, hdepth⟩ :=
    term.spells_pieces.toExpression term.category_ne_elements tokens hwrites
  have hlevels : Parsing.Admits (fun _ => False) Expr.mostLevels phrase.depth phrase.tree.height := by
    rw [htree, Parsing.Admits, Expr.mostLevels]
    omega
  have hrest : Parsing.IsRemainder [last] := ⟨⟨last, hlast⟩, .inl rfl⟩
  rcases parseExpression_of_phrase phrase hscan hrest hlevels with ⟨parsed, hparsed, hbare⟩ | ⟨_, _, hfalse⟩
  · have hfull : parsed.root.full = true := by rw [← Expr.full_bare, hbare, phrase.full_tree]
    exact ⟨parsed, hparsed, by rw [Expr.unfold_table hfull, hbare, htree]⟩
  · exact hfalse.elim

/-- `x - ( x - ( … ) )`, with so many minus signs. -/
def subtractions : Nat → Term
  | 0 => .identifier ⟨"x", by decide +kernel⟩
  | n + 1 => .binary ⟨.minus, by decide⟩ (.identifier ⟨"x", by decide +kernel⟩) (subtractions n)

/-- An expression with operators of many classes. -/
def assorted : Term :=
  let x := subtractions 0
  let negative (operand : Term) : Term := .unary ⟨.minus, by decide⟩ operand
  let power (base exponent : Term) : Term := .binary ⟨.starStar, by decide⟩ base exponent
  let selected := (power x (power (negative x) (.integer 3))).element (.integer 0)
  let product := Term.binary ⟨.star, by decide⟩ (negative (power x (.integer 2))) selected
  .conditional (.binary ⟨.equalEqualEqual, by decide⟩ product (.string "\"\\"))
    (.array [.conditional x x x, .boolean true]) (negative (negative x))

/-- Subtractions that are nested to the right need parentheses at every level, and 127 of them make a tree
of the greatest height. In the other expression parentheses stand only where a power is negated or selected
from; its string is made of a quote and a backslash. -/
theorem unfold_parse_text_subtractions :
    ((subtractions 2).text = "x - ( x - x )" ∧ (subtractions 127).tree.height = 128 ∧
      ∃ parsed, parseExpression (subtractions 127).text = .ok parsed ∧
        parsed.root.table.1.unfold parsed.root.table.2 = (subtractions 127).tree) ∧
    (assorted.text =
        "- ( x ** 2 ) * ( x ** - x ** 3 ) [ 0 ] === \"\\\"\\\\\" ? [ x ? x : x , true ] : - - x" ∧
      ∃ parsed, parseExpression assorted.text = .ok parsed ∧
        parsed.root.table.1.unfold parsed.root.table.2 = assorted.tree) :=
  ⟨⟨by decide +kernel, by decide +kernel, unfold_parse_text (subtractions 127) (by decide +kernel)⟩,
    by decide +kernel, unfold_parse_text assorted (by decide +kernel)⟩

end Term

end FlowPath
