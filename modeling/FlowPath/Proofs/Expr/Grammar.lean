import FlowPath.Number.Decimal
import FlowPath.Proofs.Expr.Tree

/-!
# The grammar of expressions

A `Phrase` is a derivation in the grammar of expressions: it knows the tokens it is made of, in their
order, and the tree it stands for. `Category` lists the classes of phrases from the loosest binding to
the tightest; every phrase of a class is one of the looser classes too.

* The conditional nests to the right, `**` groups to the right and takes a unary operand on its left,
  all other binary operators group to the left.
* Prefix operators can be repeated, and so can the postfixes `[e]` and `.name`.
* A list can have a comma after its last element.
-/

namespace FlowPath

/-- The classes of phrases, from the loosest binding to the tightest, and the elements of a list. -/
inductive Category where
  | expression | disjunction | conjunction | equality | relation | sum | product | power
  | unary | access | primary
  | elements
deriving DecidableEq, Repr

namespace Category

/-- The next tighter class. -/
def next? : Category → Option Category
  | .expression => some .disjunction
  | .disjunction => some .conjunction
  | .conjunction => some .equality
  | .equality => some .relation
  | .relation => some .sum
  | .sum => some .product
  | .product => some .power
  | .power => some .unary
  | .unary => some .access
  | .access => some .primary
  | .primary | .elements => none

/-- The operators that group to the left, by the class of the phrases that they make. -/
def operators : Category → List Token.Kind
  | .disjunction => [.orOr]
  | .conjunction => [.andAnd]
  | .equality => [.equalEqual, .bangEqual, .equalEqualEqual, .bangEqualEqual]
  | .relation => [.less, .greater, .lessEqual, .greaterEqual]
  | .sum => [.plus, .minus]
  | .product => [.star, .slash, .percent]
  | _ => []

end Category

namespace Token

/-- The operators that stand in front of their operand. -/
def unaryOperators : List Kind := [.bang, .minus, .plus]

/-- The words that a declaration starts with. -/
def declarationWords : List Kind := [.letWord, .constWord, .varWord]

/-- The operators that assign. -/
def assignmentOperators : List Kind :=
  [.assign, .plusAssign, .minusAssign, .starAssign, .slashAssign, .percentAssign]

/-- The kinds that stand in no sentence: what is no token, and what comes after a sentence. -/
def Kind.isOuter : Kind → Bool
  | .unknown | .endOfText | .semicolon => true
  | _ => false

theorem Kind.ne_endOfText {kind : Kind} (h : kind.isOuter = false) : kind ≠ .endOfText := by
  rintro rfl
  cases h

/-- The kinds that expressions are made of. -/
def Kind.isInner (kind : Kind) : Bool := !(kind.isOuter || kind.isDeclaration || kind.isAssignment)

/-- The tokens of one kind. -/
abbrev Terminal (kind : Kind) : Type := { token : Token // token.kind = kind }

@[simp] theorem Terminal.kind_val {kind : Kind} (token : Terminal kind) : token.val.kind = kind :=
  token.property

end Token

open Token (Terminal)

/-- The derivations of the grammar. -/
inductive Phrase : Category → Type where
  | tighter {category next : Category} (hnext : category.next? = some next) (inner : Phrase next) :
      Phrase category
  | conditional (condition : Phrase .disjunction) (question : Terminal .question)
      (whenTrue : Phrase .expression) (colon : Terminal .colon) (whenFalse : Phrase .expression) :
      Phrase .expression
  | binary {category next : Category} (hnext : category.next? = some next) (left : Phrase category)
      (operator : Token) (hoperator : operator.kind ∈ category.operators) (right : Phrase next) :
      Phrase category
  | power (base : Phrase .unary) (operator : Terminal .starStar) (exponent : Phrase .power) :
      Phrase .power
  | unary (operator : Token) (hoperator : operator.kind ∈ Token.unaryOperators)
      (operand : Phrase .unary) : Phrase .unary
  | element (object : Phrase .access) (opening : Terminal .openBracket) (index : Phrase .expression)
      (closing : Terminal .closeBracket) : Phrase .access
  | property (object : Phrase .access) (dot : Terminal .dot) (name : Terminal .identifier) :
      Phrase .access
  | number (literal : Terminal .number) (numeral : Decimal)
      (hnumeral : Decimal.parse? literal.val.text.toList = some numeral) : Phrase .primary
  | string (literal : Terminal .string) : Phrase .primary
  | trueWord (word : Terminal .trueWord) : Phrase .primary
  | falseWord (word : Terminal .falseWord) : Phrase .primary
  | identifier (name : Terminal .identifier) : Phrase .primary
  | parenthesized (opening : Terminal .openParen) (inner : Phrase .expression)
      (closing : Terminal .closeParen) : Phrase .primary
  | emptyArray (opening : Terminal .openBracket) (closing : Terminal .closeBracket) : Phrase .primary
  | array (opening : Terminal .openBracket) (items : Phrase .elements)
      (comma : Option (Terminal .comma)) (closing : Terminal .closeBracket) : Phrase .primary
  | lastElement (first : Phrase .expression) : Phrase .elements
  | moreElements (first : Phrase .expression) (comma : Terminal .comma) (others : Phrase .elements) :
      Phrase .elements

namespace Phrase

/-- The tokens of a phrase, in the order of the text. -/
def tokens {category : Category} : Phrase category → List Token
  | .tighter _ inner => inner.tokens
  | .conditional condition question whenTrue colon whenFalse =>
    condition.tokens ++ question.val :: (whenTrue.tokens ++ colon.val :: whenFalse.tokens)
  | .binary _ left operator _ right => left.tokens ++ operator :: right.tokens
  | .power base operator exponent => base.tokens ++ operator.val :: exponent.tokens
  | .unary operator _ operand => operator :: operand.tokens
  | .element object opening index closing =>
    object.tokens ++ opening.val :: (index.tokens ++ [closing.val])
  | .property object dot name => object.tokens ++ [dot.val, name.val]
  | .number literal _ _ => [literal.val]
  | .string literal => [literal.val]
  | .trueWord word => [word.val]
  | .falseWord word => [word.val]
  | .identifier name => [name.val]
  | .parenthesized opening inner closing => opening.val :: (inner.tokens ++ [closing.val])
  | .emptyArray opening closing => [opening.val, closing.val]
  | .array opening items comma closing =>
    opening.val :: (items.tokens ++ ((comma.map (·.val)).toList ++ [closing.val]))
  | .lastElement first => first.tokens
  | .moreElements first comma others => first.tokens ++ comma.val :: others.tokens

/-- The tree that a phrase stands for. The elements of a list stand for the list. -/
def tree {category : Category} : Phrase category → Expr Unit
  | .tighter _ inner => inner.tree
  | .conditional condition _ whenTrue _ whenFalse =>
    .conditional () condition.tree whenTrue.tree whenFalse.tree
  | .binary _ left operator _ right => .binary () operator.kind left.tree right.tree
  | .power base operator exponent => .binary () operator.val.kind base.tree exponent.tree
  | .unary operator _ operand => .unary () operator.kind operand.tree
  | .element object _ index _ => .element () object.tree index.tree
  | .property object _ name => .property () object.tree name.val.text
  | .number _ numeral _ => .number () numeral.toFloat
  | .string literal => .string () literal.val.value
  | .trueWord _ => .boolean () true
  | .falseWord _ => .boolean () false
  | .identifier name => .identifier () name.val.text
  | .parenthesized _ inner _ => inner.tree
  | .emptyArray _ _ => .array () []
  | .array _ items _ _ => items.tree
  | .lastElement first => .array () [first.tree]
  | .moreElements first _ others => .array () (first.tree :: others.tree.children)

/-- How deep a descent into the phrase goes. Inside brackets it goes one level further down, and so it
does in the operand of a prefix operator, in the right operand of a binary one and in the branches of a
conditional. -/
def depth {category : Category} : Phrase category → Nat
  | .tighter _ inner => inner.depth
  | .conditional condition _ whenTrue _ whenFalse =>
    max condition.depth (1 + max whenTrue.depth whenFalse.depth)
  | .binary _ left _ _ right => max left.depth (1 + right.depth)
  | .power base _ exponent => max base.depth (1 + exponent.depth)
  | .unary _ _ operand => 1 + operand.depth
  | .element object _ index _ => max object.depth (1 + index.depth)
  | .property object _ _ => object.depth
  | .number _ _ _ | .string _ | .trueWord _ | .falseWord _ | .identifier _ | .emptyArray _ _ => 1
  | .parenthesized _ inner _ => 1 + inner.depth
  | .array _ items _ _ => 1 + items.depth
  | .lastElement first => first.depth
  | .moreElements first _ others => max first.depth others.depth

end Phrase

/-- The tokens are those of a phrase of the class that stands for the tree. -/
def Derives (category : Category) (tokens : List Token) (tree : Expr Unit) : Prop :=
  ∃ phrase : Phrase category, phrase.tokens = tokens ∧ phrase.tree = tree

/-- The tokens are an expression, or an assignment of one expression to another. -/
inductive Assigns : List Token → Expr Unit → Prop where
  | expression {tokens : List Token} {tree : Expr Unit} (h : Derives .expression tokens tree) :
      Assigns tokens tree
  | assignment {targetTokens valueTokens : List Token} {target value : Expr Unit} {operator : Token}
      (htarget : Derives .expression targetTokens target)
      (hoperator : operator.kind ∈ Token.assignmentOperators)
      (hvalue : Derives .expression valueTokens value) :
      Assigns (targetTokens ++ operator :: valueTokens) (.assign () operator.kind target value)

/-- The tokens are an assignment, with or without a declaring word in front. -/
inductive Declares : List Token → Option Token.Kind → Expr Unit → Prop where
  | plain {tokens : List Token} {tree : Expr Unit} (h : Assigns tokens tree) :
      Declares tokens none tree
  | declared {word : Token} {tokens : List Token} {tree : Expr Unit}
      (hword : word.kind ∈ Token.declarationWords) (h : Assigns tokens tree) :
      Declares (word :: tokens) (some word.kind) tree

/-! ## Facts about phrases -/

namespace Category

/-- How tightly the phrases of a class hold together, on the scale of the operators' precedences. -/
def precedence : Category → Nat
  | .expression => 0
  | .disjunction => 4
  | .conjunction => 5
  | .equality => 9
  | .relation => 10
  | .sum => 12
  | .product => 13
  | .power => 14
  | .unary => 15
  | .access => 16
  | .primary => 17
  | .elements => 18

theorem precedence_lt_of_next? {category next : Category} (h : category.next? = some next) :
    category.precedence < next.precedence := by
  cases category <;> cases h <;> decide

theorem eq_of_precedence_eq {category category' : Category} (h : category.precedence = category'.precedence) :
    category = category' := by
  cases category <;> cases category' <;> simp_all [precedence]

theorem exists_next?_of_lt {looser category : Category} (hlt : looser.precedence < category.precedence)
    (hcategory : category ≠ .elements) :
    ∃ next, looser.next? = some next ∧ looser.precedence < next.precedence ∧
      next.precedence ≤ category.precedence := by
  cases looser <;> cases category <;> simp_all [next?, precedence]

/-- The kinds of tokens that a primary can start with. -/
def primaryStarts : List Token.Kind :=
  [.number, .string, .trueWord, .falseWord, .identifier, .openParen, .openBracket]

/-- The kinds of tokens that phrases of the class can start with. -/
def starts : Category → List Token.Kind
  | .access | .primary => primaryStarts
  | _ => primaryStarts ++ Token.unaryOperators

theorem starts_subset_of_next? {category next : Category} (h : category.next? = some next) :
    next.starts ⊆ category.starts := by
  cases category <;> cases h <;> decide

end Category

namespace Phrase

variable {category : Category}

theorem depth_pos (phrase : Phrase category) : 0 < phrase.depth := by
  induction phrase <;> simp only [depth] <;> omega

/-- A phrase of a tighter class is one of a looser class. -/
theorem exists_looser (phrase : Phrase category) (looser : Category) (hcategory : category ≠ .elements)
    (h : looser.precedence ≤ category.precedence) :
    ∃ phrase' : Phrase looser, phrase'.tokens = phrase.tokens ∧ phrase'.tree = phrase.tree ∧
      phrase'.depth = phrase.depth := by
  by_cases heq : looser.precedence = category.precedence
  · obtain rfl := Category.eq_of_precedence_eq heq
    exact ⟨phrase, rfl, rfl, rfl⟩
  · obtain ⟨next, hnext, hlt, hle⟩ := Category.exists_next?_of_lt (Nat.lt_of_le_of_ne h heq) hcategory
    obtain ⟨inner, htokens, htree, hdepth⟩ := exists_looser phrase next hcategory hle
    exact ⟨.tighter hnext inner, htokens, htree, hdepth⟩
termination_by category.precedence - looser.precedence

theorem exists_tokens_eq_cons (phrase : Phrase category) :
    ∃ first others, phrase.tokens = first :: others ∧ first.kind ∈ category.starts := by
  -- Only what stands at the left matters: a smaller phrase, an operator or a token of a fixed kind.
  induction phrase with
  | tighter hnext _ ih =>
    obtain ⟨first, others, htokens, hfirst⟩ := ih
    exact ⟨first, others, htokens, Category.starts_subset_of_next? hnext hfirst⟩
  | conditional _ _ _ _ _ ih | binary _ _ _ _ _ ih | power _ _ _ ih | element _ _ _ _ ih
  | property _ _ _ ih | moreElements _ _ _ ih =>
    obtain ⟨first, others, htokens, hfirst⟩ := ih
    exact ⟨first, _, by rw [tokens, htokens]; rfl, hfirst⟩
  | lastElement _ ih => exact ih
  | unary operator hoperator operand =>
    exact ⟨operator, operand.tokens, rfl, List.mem_append_right _ hoperator⟩
  | number token | string token | trueWord token | falseWord token | identifier token
  | parenthesized token | emptyArray token | array token =>
    exact ⟨token.val, _, rfl, by rw [token.property]; decide⟩

theorem length_tokens_pos (phrase : Phrase category) : 0 < phrase.tokens.length := by
  obtain ⟨first, others, htokens, -⟩ := phrase.exists_tokens_eq_cons
  rw [htokens]
  exact Nat.succ_pos _

theorem isInner_tokens (phrase : Phrase category) : ∀ token ∈ phrase.tokens, token.kind.isInner = true := by
  have hbinary (category : Category) : ∀ kind ∈ category.operators, kind.isInner = true := by
    cases category <;> decide
  have hunary : ∀ kind ∈ Token.unaryOperators, kind.isInner = true := by decide
  have hterminal {kind : Token.Kind} (hkind : kind.isInner = true) (token : Terminal kind) :
      token.val.kind.isInner = true := token.property.symm ▸ hkind
  induction phrase with
  | tighter _ _ ih | lastElement _ ih => exact ih
  | conditional _ question _ colon _ ihCondition ihTrue ihFalse =>
    simp only [tokens, List.forall_mem_append, List.forall_mem_cons]
    exact ⟨ihCondition, hterminal rfl question, ihTrue, hterminal rfl colon, ihFalse⟩
  | @binary category _ _ _ operator hoperator _ ihLeft ihRight =>
    simp only [tokens, List.forall_mem_append, List.forall_mem_cons]
    exact ⟨ihLeft, hbinary category _ hoperator, ihRight⟩
  | power _ operator _ ihLeft ihRight =>
    simp only [tokens, List.forall_mem_append, List.forall_mem_cons]
    exact ⟨ihLeft, hterminal rfl operator, ihRight⟩
  | unary operator hoperator _ ih => exact List.forall_mem_cons.mpr ⟨hunary _ hoperator, ih⟩
  | element _ opening _ closing ihObject ihIndex =>
    simp only [tokens, List.forall_mem_append, List.forall_mem_cons]
    exact ⟨ihObject, hterminal rfl opening, ihIndex, hterminal rfl closing, List.forall_mem_nil _⟩
  | property _ dot name ih =>
    simp only [tokens, List.forall_mem_append, List.forall_mem_cons]
    exact ⟨ih, hterminal rfl dot, hterminal rfl name, List.forall_mem_nil _⟩
  | number token | string token | trueWord token | falseWord token | identifier token =>
    exact List.forall_mem_singleton.mpr (hterminal rfl token)
  | parenthesized opening _ closing ih =>
    simp only [tokens, List.forall_mem_append, List.forall_mem_cons]
    exact ⟨hterminal rfl opening, ih, hterminal rfl closing, List.forall_mem_nil _⟩
  | emptyArray opening closing =>
    simp only [tokens, List.forall_mem_cons]
    exact ⟨hterminal rfl opening, hterminal rfl closing, List.forall_mem_nil _⟩
  | array opening _ comma closing ih =>
    simp only [tokens, List.forall_mem_append, List.forall_mem_cons]
    refine ⟨hterminal rfl opening, ih, ?_, hterminal rfl closing, List.forall_mem_nil _⟩
    cases comma with
    | none => exact List.forall_mem_nil _
    | some comma => exact List.forall_mem_singleton.mpr (hterminal rfl comma)
  | moreElements _ comma _ ihFirst ihOthers =>
    simp only [tokens, List.forall_mem_append, List.forall_mem_cons]
    exact ⟨ihFirst, hterminal rfl comma, ihOthers⟩

theorem isOuter_tokens (phrase : Phrase category) : ∀ token ∈ phrase.tokens, token.kind.isOuter = false := by
  intro token htoken
  have hinner := phrase.isInner_tokens token htoken
  rw [Token.Kind.isInner, Bool.not_eq_true'] at hinner
  exact (Bool.or_eq_false_iff.mp (Bool.or_eq_false_iff.mp hinner).1).1

theorem full_tree (phrase : Phrase category) : phrase.tree.full = true := by
  induction phrase with
  | moreElements first comma others ihFirst ihOthers =>
    rw [tree, Expr.full, Expr.fullAll, ihFirst, Bool.true_and, Expr.fullAll_iff]
    exact fun _ => Expr.full_of_mem_children ihOthers
  | _ => simp_all [tree, Expr.full, Expr.fullAll]

end Phrase

end FlowPath
