import FlowPath.Proofs.Expr.Soundness

/-!
# What is in the grammar is parsed

Started at the tokens of a phrase, the parser takes just these and returns the tree of the phrase, unless
the phrase goes deeper than the levels that are left or its tree is higher than trees may be
(`complete_levels`). What comes after the phrase must not go on with it: no postfix, no operator that
binds tightly enough, and after an expression no question mark.

Operators and postfixes are read in loops, while the phrases nest to the left. So the lemmas about loops
carry the rest of the loop along: where a phrase on the left has been read, the loop goes on from there.
-/

namespace FlowPath

open Token (Terminal)

/-- Phrases of the class can stand next to binary operators. -/
def Category.IsOperand (category : Category) : Prop :=
  0 < category.precedence ∧ category.precedence ≤ Category.unary.precedence

instance (category : Category) : Decidable category.IsOperand := inferInstanceAs (Decidable (_ ∧ _))

theorem Category.IsOperand.next {category next : Category} (h : category.IsOperand)
    (hcategory : category ≠ .unary) (hnext : category.next? = some next) : next.IsOperand := by
  revert h hcategory
  cases category <;> cases hnext <;> decide

namespace Parsing

/-- The kind of the first of some tokens. -/
def headKind (tokens : List Token) : Token.Kind := (tokens.head?.getD endToken).kind

theorem headKind_terminal {kind : Token.Kind} (token : Terminal kind) (tokens : List Token) :
    headKind (token.val :: tokens) = kind := token.property

theorem kind_token (tokens : List Token) (taken : Nat) :
    (⟨tokens, taken⟩ : Cursor).token.kind = headKind tokens := rfl

theorem headKind_ne_of_not_mem {category : Category} (phrase : Phrase category) {kind : Token.Kind}
    (hkind : kind ∉ category.starts) (rest : List Token) : headKind (phrase.tokens ++ rest) ≠ kind := by
  obtain ⟨first, others, htokens, hfirst⟩ := phrase.exists_tokens_eq_cons
  rintro rfl
  rw [htokens] at hkind
  exact hkind hfirst

/-- No token of this kind goes on with an operand of prefix operators. -/
def endsAccess (kind : Token.Kind) : Bool := kind ≠ .openBracket && kind ≠ .dot

/-- No token of this kind goes on with an operand of operators below `least`. -/
def endsOperand (least : Nat) (kind : Token.Kind) : Bool :=
  endsAccess kind && (precedence? kind).all (· < least)

/-- No token of this kind goes on with an expression. -/
def endsExpression (kind : Token.Kind) : Bool := endsOperand leastPrecedence kind && kind ≠ .question

theorem endsAccess_iff {kind : Token.Kind} :
    endsAccess kind = true ↔ kind ≠ .openBracket ∧ kind ≠ .dot := by
  simp [endsAccess]

theorem endsOperand_iff {least : Nat} {kind : Token.Kind} :
    endsOperand least kind = true ↔
      endsAccess kind = true ∧ ∀ precedence, precedence? kind = some precedence → precedence < least := by
  simp [endsOperand, Option.all_eq_true]

theorem endsExpression_iff {kind : Token.Kind} :
    endsExpression kind = true ↔ endsOperand leastPrecedence kind = true ∧ kind ≠ .question := by
  simp [endsExpression]

/-- If the depth is more than the levels that are left, or the height more than trees may have, then it is
admitted that the parser goes too deep. -/
def Admits (F : ParseFault → Prop) (levels depth height : Nat) : Prop :=
  levels < depth ∨ Expr.mostLevels < height → F .tooDeep

/-- The phrase has been read: the rest is left, and the result is its tree. -/
structure Reads {category : Category} (phrase : Phrase category) (rest : List Token) (e : Expr Place)
    (after : Cursor) : Prop where
  rest : ∃ taken, after = ⟨rest, taken⟩
  tree : e.bare = phrase.tree
  measured : e.Measured

/-- The parser reads the phrase, unless that goes too deep. -/
def ReadsPhrase (F : ParseFault → Prop) (levels : Nat) (parser : Parser (Expr Place)) {category : Category}
    (phrase : Phrase category) (rest : List Token) : Prop :=
  Admits F levels phrase.depth phrase.tree.height →
    ∀ taken, Runs F parser ⟨phrase.tokens ++ rest, taken⟩ (Reads phrase rest)

/-- Every expression is read. -/
def ReadsExpressions (F : ParseFault → Prop) (levels : Nat) (parser : Parser (Expr Place)) : Prop :=
  ∀ (phrase : Phrase .expression) (rest : List Token), endsExpression (headKind rest) = true →
    ReadsPhrase F levels parser phrase rest

variable {F : ParseFault → Prop} {levels : Nat} {expr : Parser (Expr Place)} {below : Grammar}
  {rest : List Token} {taken : Nat}

theorem Admits.mono {levels' depth depth' height height' : Nat} (h : Admits F levels depth height)
    (hdepth : levels' < depth' → levels < depth) (hheight : height' ≤ height) :
    Admits F levels' depth' height' :=
  fun h' => h (h'.imp hdepth fun hlt => Nat.lt_of_lt_of_le hlt hheight)

/-- A node whose children have been read gets its place, unless it is too high. -/
theorem runs_place_node (node : Place → Expr Place) {start stop depth : Nat} {children : List (Expr Place)}
    {tree : Expr Unit} {cursor : Cursor} {Q : Place → Cursor → Prop}
    (hnote : ∀ place, (node place).note = place) (hchildren : ∀ place, (node place).children = children)
    (hmeasured : ∀ child ∈ children, child.Measured) (htree : ∀ place, (node place).bare = tree)
    (hF : Admits F levels depth tree.height) (h : ∀ place, (node place).Measured → Q place cursor) :
    Runs F (place start stop children) cursor Q := by
  have hheight (place : Place) :
      1 + Expr.highest (children.map fun child => child.note.height) = tree.height := by
    rw [Expr.highest_eq_heightAll hmeasured, ← htree place, Expr.height_eq, Expr.children_bare, hchildren]
  rw [runs_place]
  split
  case isTrue hlt => exact hF (.inr (hheight ⟨⟨start, stop⟩, 0⟩ ▸ hlt))
  case isFalse => exact h _ (by rw [Expr.Measured, hnote, htree]; exact hheight ⟨⟨start, stop⟩, 0⟩)

/-! ## Primaries -/

theorem complete_leaf {token : Token} {node : Place → Expr Place} (phrase : Phrase .primary)
    (htree : ∀ place, (node place).bare = phrase.tree) (hheight : phrase.tree.height = 1)
    (hnote : ∀ place, (node place).note = place) :
    Runs F (do advance; return node (← place token.start token.stop [])) ⟨token :: rest, taken⟩
      (Reads phrase rest) := by
  have hfits : ¬ Expr.mostLevels < 1 + Expr.highest [] := by decide
  rw [runs_bind, runs_advance, runs_bind, runs_place, List.map_nil, if_neg hfits]
  exact ⟨⟨_, rfl⟩, htree _, by rw [Expr.Measured, hnote, htree, hheight]; rfl⟩

theorem tree_eq_array (phrase : Phrase .elements) : phrase.tree = .array () phrase.tree.children := by
  cases phrase with
  | tighter hnext => cases hnext
  | binary _ _ _ hoperator => cases hoperator
  | lastElement => rfl
  | moreElements => rfl

theorem height_elements (phrase : Phrase .elements) :
    phrase.tree.height = 1 + Expr.heightAll phrase.tree.children := by
  have h := congrArg Expr.height (tree_eq_array phrase)
  rwa [Expr.height] at h

/-- Elements have been read, after those that were known. -/
structure ReadsItems (trees : List (Expr Unit)) (done : List (Expr Place)) (rest : List Token)
    (items : List (Expr Place)) (after : Cursor) : Prop where
  rest : ∃ taken, after = ⟨rest, taken⟩
  items : ∃ new, items = done.reverse ++ new ∧ new.map Expr.bare = trees ∧ ∀ e ∈ new, e.Measured

theorem runs_elements_closing (closing : Terminal .closeBracket) (fuel : Nat) (done : List (Expr Place))
    {Q : List (Expr Place) → Cursor → Prop} (h : Q done.reverse ⟨closing.val :: rest, taken⟩) :
    Runs F (elements expr fuel done) ⟨closing.val :: rest, taken⟩ Q := by
  cases fuel with
  | zero => exact h
  | succ fuel =>
    rw [elements, runs_bind, runs_peek, Cursor.token_cons, if_pos closing.property]
    exact h

theorem runs_elements_step (hexpr : ReadsExpressions F levels expr) (first : Phrase .expression)
    (hends : endsExpression (headKind rest) = true) (hF : Admits F levels first.depth first.tree.height)
    (fuel : Nat) (done : List (Expr Place)) {Q : List (Expr Place) → Cursor → Prop}
    (hcomma : ∀ e taken, headKind rest = .comma → e.bare = first.tree → e.Measured →
      Runs F (elements expr fuel (e :: done)) (⟨rest, taken⟩ : Cursor).next Q)
    (hlast : ∀ e taken, headKind rest ≠ .comma → e.bare = first.tree → e.Measured →
      Q (e :: done).reverse ⟨rest, taken⟩) :
    Runs F (elements expr (fuel + 1) done) ⟨first.tokens ++ rest, taken⟩ Q := by
  have hhead : headKind (first.tokens ++ rest) ≠ .closeBracket :=
    headKind_ne_of_not_mem first (by decide) rest
  rw [elements, runs_bind, runs_peek, kind_token, if_neg hhead]
  refine (hexpr first rest hends hF taken).andThen ?_
  rintro e _ ⟨⟨taken', rfl⟩, htree, hmeasured⟩
  rw [runs_bind, runs_peek, kind_token]
  split
  case isTrue h => exact hcomma e taken' h htree hmeasured
  case isFalse h => exact hlast e taken' h htree hmeasured

theorem complete_elements (hexpr : ReadsExpressions F levels expr) {category : Category}
    (phrase : Phrase category) (hcategory : category = .elements) (comma : Option (Terminal .comma))
    (closing : Terminal .closeBracket) (hF : Admits F levels phrase.depth phrase.tree.height) {fuel : Nat}
    (hfuel : phrase.tokens.length ≤ fuel) (done : List (Expr Place)) (taken : Nat) :
    Runs F (elements expr fuel done)
      ⟨phrase.tokens ++ ((comma.map (·.val)).toList ++ closing.val :: rest), taken⟩
      (ReadsItems phrase.tree.children done (closing.val :: rest)) := by
  induction phrase generalizing fuel done taken with
  | lastElement first =>
    obtain ⟨fuel, rfl⟩ := Nat.exists_eq_add_one.mpr (Nat.lt_of_lt_of_le first.length_tokens_pos hfuel)
    have hends : endsExpression (headKind ((comma.map (·.val)).toList ++ closing.val :: rest)) = true := by
      cases comma <;> simp [headKind_terminal] <;> rfl
    have hheight : first.tree.height ≤ (Phrase.lastElement first).tree.height := by
      simp only [Phrase.tree, Expr.height, Expr.heightAll]
      omega
    have hread {e : Expr Place} (htree : e.bare = first.tree) (hmeasured : e.Measured) (taken : Nat) :
        ReadsItems (Phrase.lastElement first).tree.children done (closing.val :: rest) (e :: done).reverse
          ⟨closing.val :: rest, taken⟩ :=
      ⟨⟨_, rfl⟩, [e], by simp, by simp [Phrase.tree, Expr.children, htree], by simpa using hmeasured⟩
    refine runs_elements_step hexpr first hends (hF.mono id hheight) fuel done ?_ ?_
    · intro e taken' hcomma htree hmeasured
      cases comma with
      | none => exact absurd (closing.property.symm.trans hcomma) (by decide)
      | some separator => exact runs_elements_closing closing fuel _ (hread htree hmeasured _)
    · intro e taken' hcomma htree hmeasured
      cases comma with
      | none => exact hread htree hmeasured taken'
      | some separator => exact absurd separator.property hcomma
  | moreElements first separator others _ ih =>
    obtain ⟨fuel, rfl⟩ : ∃ n, fuel = n + 1 :=
      Nat.exists_eq_add_one.mpr (Nat.lt_of_lt_of_le (Phrase.length_tokens_pos _) hfuel)
    have hends : endsExpression (headKind (separator.val :: (others.tokens ++
        ((comma.map (·.val)).toList ++ closing.val :: rest)))) = true := by
      rw [headKind_terminal]
      rfl
    have hshorter : others.tokens.length ≤ fuel := by
      simp only [Phrase.tokens, List.length_append, List.length_cons] at hfuel
      omega
    have hheight := height_elements others
    simp only [Phrase.tree, Phrase.depth, Expr.height, Expr.heightAll] at hF
    simp only [Phrase.tokens, List.append_assoc, List.cons_append]
    refine runs_elements_step hexpr first hends (hF.mono (by omega) (by omega)) fuel done ?_ ?_
    · intro e taken' _ htree hmeasured
      rw [Cursor.next_cons]
      refine (ih rfl (hF.mono (by omega) (by omega)) hshorter (e :: done) _).mono ?_
      rintro items after ⟨hrest, new, rfl, htrees, hnew⟩
      refine ⟨hrest, e :: new, by simp, ?_, List.forall_mem_cons.mpr ⟨hmeasured, hnew⟩⟩
      rw [List.map_cons, htree, htrees]
      rfl
    · exact fun _ _ hcomma => absurd separator.property hcomma
  | tighter hnext => subst hcategory; cases hnext
  | binary _ _ _ hoperator => subst hcategory; cases hoperator
  | _ => cases hcategory

theorem complete_primary (hexpr : ReadsExpressions F levels expr) (phrase : Phrase .primary)
    (rest : List Token) : ReadsPhrase F (levels + 1) (primary expr) phrase rest := by
  intro hF taken
  rw [primary, runs_bind, runs_peek]
  cases phrase with
  | tighter hnext => cases hnext
  | binary _ _ _ hoperator => cases hoperator
  | number literal numeral hnumeral =>
    simp only [Phrase.tokens, List.cons_append, List.nil_append, Cursor.token_cons, Terminal.kind_val,
      hnumeral]
    exact complete_leaf (.number literal numeral hnumeral) (fun _ => rfl) rfl fun _ => rfl
  | string literal =>
    simp only [Phrase.tokens, List.cons_append, List.nil_append, Cursor.token_cons, Terminal.kind_val]
    exact complete_leaf (.string literal) (fun _ => rfl) rfl fun _ => rfl
  | trueWord word =>
    simp only [Phrase.tokens, List.cons_append, List.nil_append, Cursor.token_cons, Terminal.kind_val]
    exact complete_leaf (.trueWord word) (fun _ => rfl) rfl fun _ => rfl
  | falseWord word =>
    simp only [Phrase.tokens, List.cons_append, List.nil_append, Cursor.token_cons, Terminal.kind_val]
    exact complete_leaf (.falseWord word) (fun _ => rfl) rfl fun _ => rfl
  | identifier name =>
    simp only [Phrase.tokens, List.cons_append, List.nil_append, Cursor.token_cons, Terminal.kind_val]
    exact complete_leaf (.identifier name) (fun _ => rfl) rfl fun _ => rfl
  | parenthesized opening inner closing =>
    simp only [Phrase.tokens, List.cons_append, List.nil_append, List.append_assoc, Cursor.token_cons,
      Terminal.kind_val]
    rw [runs_bind, runs_advance, Cursor.next_cons]
    have hends : endsExpression (headKind (closing.val :: rest)) = true := by rw [headKind_terminal]; rfl
    simp only [Phrase.tree, Phrase.depth] at hF
    refine (hexpr inner _ hends (hF.mono (by omega) (Nat.le_refl _)) _).andThen ?_
    rintro e _ ⟨⟨taken', rfl⟩, htree, hmeasured⟩
    rw [runs_bind, runs_expect, kind_token, if_pos (headKind_terminal ..)]
    exact ⟨⟨_, rfl⟩, htree, hmeasured⟩
  | emptyArray opening closing =>
    simp only [Phrase.tokens, List.cons_append, List.nil_append, Cursor.token_cons, Terminal.kind_val]
    rw [runs_bind, runs_advance, Cursor.next_cons, runs_bind, runs_tokensLeft, runs_bind]
    refine runs_elements_closing closing _ _ ?_
    rw [runs_bind, runs_expect, kind_token, if_pos (headKind_terminal ..), runs_bind, runs_placeFrom]
    exact runs_place_node (.array · []) (fun _ => rfl) (fun _ => rfl) (List.forall_mem_nil _)
      (fun _ => rfl) hF fun place hmeasured => ⟨⟨_, rfl⟩, rfl, hmeasured⟩
  | array opening items comma closing =>
    simp only [Phrase.tokens, List.cons_append, List.nil_append, List.append_assoc, Cursor.token_cons,
      Terminal.kind_val]
    rw [runs_bind, runs_advance, Cursor.next_cons, runs_bind, runs_tokensLeft]
    simp only [Phrase.tree, Phrase.depth] at hF
    refine (complete_elements hexpr items rfl comma closing (hF.mono (by omega) (Nat.le_refl _)) (by simp)
      [] _).andThen ?_
    rintro new _ ⟨⟨taken', rfl⟩, _, rfl, htrees, hnew⟩
    rw [runs_bind, runs_expect, kind_token, if_pos (headKind_terminal ..), runs_bind, runs_placeFrom]
    have htree (place : Place) : (Expr.array place new).bare = items.tree := by
      rw [Expr.bare, Expr.bareAll_eq_map, htrees, ← tree_eq_array]
    exact runs_place_node (.array · new) (fun _ => rfl) (fun _ => rfl) hnew htree hF
      fun place hmeasured => ⟨⟨_, rfl⟩, htree place, hmeasured⟩

/-! ## Postfixes and prefix operators -/

/-- A primary with its postfixes has been read where the loop over postfixes goes on after it. -/
theorem runs_access (hexpr : ReadsExpressions F levels expr) {category : Category} (phrase : Phrase category)
    (hcategory : category = .access) (hF : Admits F (levels + 1) phrase.depth phrase.tree.height)
    {Q : Expr Place → Cursor → Prop}
    (hthen : ∀ e taken fuel, e.bare = phrase.tree → e.Measured → rest.length ≤ fuel →
      Runs F (postfixes expr fuel e) ⟨rest, taken⟩ Q) :
    Runs F (do let object ← primary expr; postfixes expr (← tokensLeft) object)
      ⟨phrase.tokens ++ rest, taken⟩ Q := by
  induction phrase generalizing rest with
  | tighter hnext inner =>
    subst hcategory
    cases hnext
    refine (complete_primary hexpr inner rest hF taken).andThen ?_
    rintro e _ ⟨⟨taken', rfl⟩, htree, hmeasured⟩
    rw [runs_bind, runs_tokensLeft]
    exact hthen e taken' _ htree hmeasured (Nat.le_refl _)
  | element object opening index closing ih =>
    simp only [Phrase.tokens, List.append_assoc, List.cons_append, List.nil_append]
    simp only [Phrase.tree, Phrase.depth, Expr.height] at hF
    refine ih rfl (hF.mono (by omega) (by omega)) fun e taken fuel htree hmeasured hfuel => ?_
    obtain ⟨fuel, rfl⟩ := Nat.exists_eq_add_one.mpr (Nat.lt_of_lt_of_le (Nat.succ_pos _) hfuel)
    have hends : endsExpression (headKind (closing.val :: rest)) = true := by rw [headKind_terminal]; rfl
    rw [postfixes, runs_bind, runs_peek, kind_token, headKind_terminal]
    dsimp only
    rw [runs_bind, runs_advance, Cursor.next_cons]
    refine (hexpr index _ hends (hF.mono (by omega) (by omega)) _).andThen ?_
    rintro i _ ⟨⟨taken', rfl⟩, hindex, hmeasured'⟩
    rw [runs_bind, runs_expect, kind_token, if_pos (headKind_terminal ..), Cursor.next_cons, runs_bind,
      runs_placeFrom]
    have hbare (place : Place) : (Expr.element place e i).bare = .element () object.tree index.tree := by
      rw [Expr.bare, htree, hindex]
    refine runs_place_node (.element · e i) (fun _ => rfl) (fun _ => rfl)
      (by simp [hmeasured, hmeasured']) hbare hF fun place hplace => hthen _ _ fuel (hbare place) hplace ?_
    simp only [List.length_cons, List.length_append] at hfuel
    omega
  | property object dot name ih =>
    simp only [Phrase.tokens, List.append_assoc, List.cons_append, List.nil_append]
    simp only [Phrase.tree, Phrase.depth, Expr.height] at hF
    refine ih rfl (hF.mono (by omega) (by omega)) fun e taken fuel htree hmeasured hfuel => ?_
    obtain ⟨fuel, rfl⟩ := Nat.exists_eq_add_one.mpr (Nat.lt_of_lt_of_le (Nat.succ_pos _) hfuel)
    rw [postfixes, runs_bind, runs_peek, kind_token, headKind_terminal]
    dsimp only
    rw [runs_bind, runs_advance, Cursor.next_cons, runs_bind, runs_peek, Cursor.token_cons,
      if_pos name.property, runs_bind, runs_advance, Cursor.next_cons, runs_bind, runs_placeFrom]
    have hbare (place : Place) :
        (Expr.property place e name.val.text).bare = .property () object.tree name.val.text := by
      rw [Expr.bare, htree]
    refine runs_place_node (.property · e name.val.text) (fun _ => rfl) (fun _ => rfl) (by simp [hmeasured])
      hbare hF fun place hplace => hthen _ _ fuel (hbare place) hplace ?_
    simp only [List.length_cons] at hfuel
    omega
  | binary _ _ _ hoperator => subst hcategory; cases hoperator
  | _ => cases hcategory

/-- The loop over postfixes ends where none comes next. -/
theorem runs_postfixes_end (hends : endsAccess (headKind rest) = true) (fuel : Nat) {e : Expr Place}
    {Q : Expr Place → Cursor → Prop} (h : Q e ⟨rest, taken⟩) :
    Runs F (postfixes expr fuel e) ⟨rest, taken⟩ Q := by
  obtain ⟨hbracket, hdot⟩ := endsAccess_iff.mp hends
  cases fuel with
  | zero => exact h
  | succ fuel =>
    rw [postfixes, runs_bind, runs_peek, kind_token]
    split
    case h_1 hkind => exact absurd hkind hbracket
    case h_2 hkind => exact absurd hkind hdot
    case h_3 => exact h

theorem complete_unaryAround
    (hunary : ∀ (phrase : Phrase .unary) (rest : List Token), endsAccess (headKind rest) = true →
      ReadsPhrase F levels below.unary phrase rest)
    (hexpr : ReadsExpressions F levels expr) (phrase : Phrase .unary) (rest : List Token)
    (hends : endsAccess (headKind rest) = true) :
    ReadsPhrase F (levels + 1) (unaryAround below expr) phrase rest := by
  intro hF taken
  rw [unaryAround, runs_bind, runs_peek]
  cases phrase with
  | binary _ _ _ hoperator => cases hoperator
  | unary operator hoperator operand =>
    rw [Phrase.tokens, List.cons_append, Cursor.token_cons, if_pos (mem_unaryOperators_iff.mp hoperator),
      runs_bind, runs_advance, Cursor.next_cons]
    simp only [Phrase.tree, Phrase.depth, Expr.height] at hF
    refine (hunary operand rest hends (hF.mono (by omega) (by omega)) _).andThen ?_
    rintro e _ ⟨⟨taken', rfl⟩, htree, hmeasured⟩
    rw [runs_bind, runs_placeFrom]
    have hbare (place : Place) :
        (Expr.unary place operator.kind e).bare = .unary () operator.kind operand.tree := by
      rw [Expr.bare, htree]
    exact runs_place_node (.unary · operator.kind e) (fun _ => rfl) (fun _ => rfl) (by simp [hmeasured])
      hbare hF fun place hplace => ⟨⟨_, rfl⟩, hbare place, hplace⟩
  | tighter hnext inner =>
    cases hnext
    have hdisjoint : ∀ kind ∈ Token.unaryOperators, kind ∉ Category.access.starts := by decide
    have hnot : ¬ isUnary (headKind ((Phrase.tighter rfl inner : Phrase .unary).tokens ++ rest)) = true :=
      fun h => headKind_ne_of_not_mem inner (hdisjoint _ (mem_unaryOperators_iff.mpr h)) rest rfl
    rw [kind_token, if_neg hnot]
    refine runs_access hexpr inner rfl hF fun e taken' fuel htree hmeasured _ => ?_
    exact runs_postfixes_end hends fuel ⟨⟨_, rfl⟩, htree, hmeasured⟩

/-! ## Binary operators and conditionals -/

/-- With so many levels the parsers of the grammar read every phrase that goes no deeper. -/
structure Grammar.Complete (grammar : Grammar) (levels : Nat) : Prop where
  expression {F : ParseFault → Prop} (phrase : Phrase .expression) (rest : List Token) (taken : Nat)
    (hends : endsExpression (headKind rest) = true)
    (hF : Admits F levels (phrase.depth + 1) phrase.tree.height) :
    Runs F grammar.expression ⟨phrase.tokens ++ rest, taken⟩ (Reads phrase rest)
  binary {F : ParseFault → Prop} {category : Category} (phrase : Phrase category)
    (hcategory : category.IsOperand) (least : Nat) (hleast : least ≤ category.precedence) (rest : List Token)
    (hends : endsOperand least (headKind rest) = true) :
    ReadsPhrase F levels (grammar.binary least) phrase rest
  unary {F : ParseFault → Prop} (phrase : Phrase .unary) (rest : List Token)
    (hends : endsAccess (headKind rest) = true) : ReadsPhrase F levels grammar.unary phrase rest

/-- The loop over operators takes an operator and the operand on its right, and goes on after it. -/
theorem runs_operators_step (hbelow : below.Complete levels) {least fuel precedence depth : Nat}
    {operator : Token} {left : Expr Place} {category : Category} (right : Phrase category)
    (hoperator : precedence? operator.kind = some precedence) (hleast : least ≤ precedence)
    (hleft : left.Measured) (hcategory : category.IsOperand)
    (hright : rightPrecedence operator.kind precedence ≤ category.precedence)
    (hends : endsOperand (rightPrecedence operator.kind precedence) (headKind rest) = true)
    (hF : Admits F (levels + 1) depth (Expr.binary () operator.kind left.bare right.tree).height)
    (hdepth : right.depth < depth) (hfuel : (operator :: (right.tokens ++ rest)).length ≤ fuel)
    {Q : Expr Place → Cursor → Prop}
    (hthen : ∀ e taken fuel, e.bare = .binary () operator.kind left.bare right.tree → e.Measured →
      rest.length ≤ fuel → Runs F (operators below least fuel e) ⟨rest, taken⟩ Q) :
    Runs F (operators below least fuel left) ⟨operator :: (right.tokens ++ rest), taken⟩ Q := by
  obtain ⟨fuel, rfl⟩ := Nat.exists_eq_add_one.mpr (Nat.lt_of_lt_of_le (Nat.succ_pos _) hfuel)
  rw [operators, runs_bind, runs_peek, Cursor.token_cons]
  simp only [hoperator, if_neg (Nat.not_lt.mpr hleast)]
  rw [runs_bind, runs_advance, Cursor.next_cons]
  simp only [Expr.height] at hF
  refine (hbelow.binary right hcategory _ hright rest hends (hF.mono (by omega) (by omega)) _).andThen ?_
  rintro e _ ⟨⟨taken', rfl⟩, htree, hmeasured⟩
  rw [runs_bind, runs_placeFrom]
  have hbare (place : Place) :
      (Expr.binary place operator.kind left e).bare = .binary () operator.kind left.bare right.tree := by
    rw [Expr.bare, htree]
  refine runs_place_node (.binary · operator.kind left e) (fun _ => rfl) (fun _ => rfl)
    (by simp [hleft, hmeasured]) hbare hF fun place hplace => hthen _ _ fuel (hbare place) hplace ?_
  simp only [List.length_cons, List.length_append] at hfuel
  omega

/-- The loop over operators ends where none comes next that binds tightly enough. -/
theorem runs_operators_end {least : Nat} (hends : endsOperand least (headKind rest) = true) (fuel : Nat)
    {e : Expr Place} {Q : Expr Place → Cursor → Prop} (h : Q e ⟨rest, taken⟩) :
    Runs F (operators below least fuel e) ⟨rest, taken⟩ Q := by
  obtain ⟨-, hoperator⟩ := endsOperand_iff.mp hends
  cases fuel with
  | zero => exact h
  | succ fuel =>
    rw [operators, runs_bind, runs_peek, kind_token]
    dsimp only
    split
    case h_1 => exact h
    case h_2 precedence hprecedence =>
      rw [if_pos (hoperator precedence hprecedence)]
      exact h

theorem endsAccess_of_precedence? {kind : Token.Kind} {precedence : Nat}
    (h : precedence? kind = some precedence) : endsAccess kind = true := by
  cases kind <;> cases h <;> rfl

/-- An operand has been read where the loop over operators goes on after it. -/
theorem runs_operand (hbelow : below.Complete levels)
    (hunary : ∀ (phrase : Phrase .unary) (rest : List Token), endsAccess (headKind rest) = true →
      ReadsPhrase F (levels + 1) below.around.unary phrase rest)
    {category : Category} (phrase : Phrase category) (hcategory : category.IsOperand) {least : Nat}
    (hleast : least ≤ category.precedence) (haccess : endsAccess (headKind rest) = true)
    (hjoins : category.Joins (headKind rest)) (hF : Admits F (levels + 1) phrase.depth phrase.tree.height)
    {Q : Expr Place → Cursor → Prop}
    (hthen : ∀ e taken fuel, e.bare = phrase.tree → e.Measured → rest.length ≤ fuel →
      Runs F (operators below least fuel e) ⟨rest, taken⟩ Q) :
    Runs F (below.around.binary least) ⟨phrase.tokens ++ rest, taken⟩ Q := by
  -- A unary phrase is read as a whole, then the loop starts.
  have hfirst (phrase : Phrase .unary) (hF : Admits F (levels + 1) phrase.depth phrase.tree.height)
      {rest : List Token} (haccess : endsAccess (headKind rest) = true)
      (hthen : ∀ e taken fuel, e.bare = phrase.tree → e.Measured → rest.length ≤ fuel →
        Runs F (operators below least fuel e) ⟨rest, taken⟩ Q) :
      Runs F (below.around.binary least) ⟨phrase.tokens ++ rest, taken⟩ Q := by
    refine (hunary phrase rest haccess hF taken).andThen ?_
    rintro e _ ⟨⟨taken', rfl⟩, htree, hmeasured⟩
    rw [runs_bind, runs_tokensLeft]
    exact hthen e taken' _ htree hmeasured (Nat.le_refl _)
  induction phrase generalizing rest with
  | @tighter category next hnext inner ih =>
    by_cases hcase : category = .unary
    · subst hcase
      exact hfirst (.tighter hnext inner) hF haccess hthen
    · have hlt := Category.precedence_lt_of_next? hnext
      refine ih (hcategory.next hcase hnext) (by omega) haccess (fun precedence h => .inl ?_) hF hthen
      rcases hjoins precedence h with h | h <;> omega
  | unary operator hoperator operand => exact hfirst (.unary operator hoperator operand) hF haccess hthen
  | @binary category next hnext left operator hoperator right ihLeft =>
    obtain ⟨hprecedence, hkind⟩ := precedence?_of_mem_operators hoperator
    have hcase : category ≠ .unary := by
      rintro rfl
      cases hoperator
    have hright : rightPrecedence operator.kind category.precedence = category.precedence + 1 := if_neg hkind
    simp only [Phrase.tokens, List.append_assoc, List.cons_append]
    simp only [Phrase.tree, Phrase.depth] at hF
    refine ihLeft hcategory hleast (endsAccess_of_precedence? hprecedence) ?_ (hF.mono (by omega) ?_) ?_
    · intro precedence h
      exact .inr ⟨Option.some.inj (h.symm.trans hprecedence), hkind⟩
    · rw [Expr.height]
      omega
    · intro e taken fuel htree hmeasured hfuel
      rw [← htree] at hF
      refine runs_operators_step hbelow right hprecedence hleast hmeasured (hcategory.next hcase hnext)
        ?_ ?_ hF (by omega) hfuel fun e' taken fuel htree' =>
          hthen e' taken fuel (by rw [htree', htree, Phrase.tree])
      · rw [hright]
        exact Category.precedence_lt_of_next? hnext
      · rw [hright, endsOperand_iff]
        refine ⟨haccess, fun precedence h => ?_⟩
        rcases hjoins precedence h with h | h <;> omega
  | power base operator exponent ihBase =>
    have hprecedence : precedence? operator.val.kind = some Category.power.precedence := by
      rw [operator.property]
      rfl
    have hright : rightPrecedence operator.val.kind Category.power.precedence = Category.power.precedence :=
      if_pos operator.property
    simp only [Phrase.tokens, List.append_assoc, List.cons_append]
    simp only [Phrase.tree, Phrase.depth] at hF
    refine ihBase (by decide) (Nat.le_succ_of_le hleast) (endsAccess_of_precedence? hprecedence)
      (joins_unary _) (hF.mono (by omega) ?_) ?_
    · rw [Expr.height]
      omega
    · intro e taken fuel htree hmeasured hfuel
      rw [← htree] at hF
      refine runs_operators_step hbelow exponent hprecedence hleast hmeasured (by decide)
        (Nat.le_of_eq hright) ?_ hF (by omega) hfuel fun e' taken fuel htree' =>
          hthen e' taken fuel (by rw [htree', htree, Phrase.tree])
      rw [hright, endsOperand_iff]
      exact ⟨haccess, fun precedence h =>
        (hjoins precedence h).elim id fun hsame => lt_power_of_ne_starStar h hsame.2⟩
  | _ => exact absurd hcategory (by decide)

theorem complete_conditional (hbelow : below.Complete levels) :
    ReadsExpressions F levels (conditional below) := by
  intro phrase rest hends hF taken
  obtain ⟨hoperand, hquestion⟩ := endsExpression_iff.mp hends
  rw [conditional]
  cases phrase with
  | binary _ _ _ hoperator => cases hoperator
  | tighter hnext inner =>
    cases hnext
    refine (hbelow.binary inner (by decide) _ (by decide) rest hoperand hF taken).andThen ?_
    rintro e _ ⟨⟨taken', rfl⟩, htree, hmeasured⟩
    rw [runs_bind, runs_peek, kind_token, if_neg hquestion]
    exact ⟨⟨_, rfl⟩, htree, hmeasured⟩
  | conditional condition question whenTrue colon whenFalse =>
    simp only [Phrase.tokens, List.append_assoc, List.cons_append]
    simp only [Phrase.tree, Phrase.depth, Expr.height] at hF
    have hfirst : endsOperand leastPrecedence (headKind (question.val ::
        (whenTrue.tokens ++ colon.val :: (whenFalse.tokens ++ rest)))) = true := by
      rw [headKind_terminal]
      rfl
    have hsecond : endsExpression (headKind (colon.val :: (whenFalse.tokens ++ rest))) = true := by
      rw [headKind_terminal]
      rfl
    refine (hbelow.binary condition (by decide) _ (by decide) _ hfirst (hF.mono (by omega) (by omega))
      taken).andThen ?_
    rintro c _ ⟨⟨taken', rfl⟩, hcondition, hmeasured⟩
    rw [runs_bind, runs_peek, kind_token, if_pos (headKind_terminal ..), runs_bind, runs_advance,
      Cursor.next_cons]
    refine (hbelow.expression whenTrue _ _ hsecond (hF.mono (by omega) (by omega))).andThen ?_
    rintro t _ ⟨⟨taken', rfl⟩, htrue, hmeasured'⟩
    rw [runs_bind, runs_expect, kind_token, if_pos (headKind_terminal ..), Cursor.next_cons]
    refine (hbelow.expression whenFalse _ _ hends (hF.mono (by omega) (by omega))).andThen ?_
    rintro f _ ⟨⟨taken', rfl⟩, hfalse, hmeasured''⟩
    rw [runs_bind, runs_placeFrom]
    have hbare (place : Place) : (Expr.conditional place c t f).bare =
        .conditional () condition.tree whenTrue.tree whenFalse.tree := by
      rw [Expr.bare, hcondition, htrue, hfalse]
    exact runs_place_node (.conditional · c t f) (fun _ => rfl) (fun _ => rfl)
      (by simp [hmeasured, hmeasured', hmeasured'']) hbare hF
      fun place hplace => ⟨⟨_, rfl⟩, hbare place, hplace⟩

/-! ## Levels -/

theorem complete_none : Grammar.none.Complete 0 where
  expression _ _ _ _ hF := hF (.inl (Nat.succ_pos _))
  binary phrase _ _ _ _ _ hF _ := hF (.inl phrase.depth_pos)
  unary phrase _ _ hF _ := hF (.inl phrase.depth_pos)

theorem complete_around (hbelow : below.Complete levels) : below.around.Complete (levels + 1) where
  expression phrase rest taken hends hF :=
    complete_conditional hbelow phrase rest hends (hF.mono (by omega) (Nat.le_refl _)) taken
  binary phrase hcategory least hleast rest hends hF taken := by
    obtain ⟨haccess, hoperator⟩ := endsOperand_iff.mp hends
    refine runs_operand hbelow ?_ phrase hcategory hleast haccess ?_ hF ?_
    · exact complete_unaryAround hbelow.unary (complete_conditional hbelow)
    · exact fun precedence h => .inl (Nat.lt_of_lt_of_le (hoperator precedence h) hleast)
    · exact fun e taken fuel htree hmeasured _ => runs_operators_end hends fuel ⟨⟨_, rfl⟩, htree, hmeasured⟩
  unary := complete_unaryAround hbelow.unary (complete_conditional hbelow)

theorem complete_levels (n : Nat) : (Grammar.levels n).Complete (n + 1) := by
  induction n with
  | zero => exact complete_around complete_none
  | succ n ih => exact complete_around ih

end Parsing

end FlowPath
