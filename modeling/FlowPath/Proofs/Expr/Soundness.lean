import FlowPath.Proofs.Expr.Grammar
import FlowPath.Proofs.Expr.Runs

/-!
# What is parsed is in the grammar

Whatever the parser returns, the tokens that it has taken are a phrase that stands for the result
(`sound_levels`). The loops over postfixes and operators extend a phrase that was read before them, so
their lemmas speak of all tokens from its start on. That a left operand goes with the operator after it
is the invariant of the loop over operators: `Category.Joins`.
-/

namespace FlowPath

/-- The tokens start with a phrase that stands for the tree, and `rest` comes after it. -/
def DerivesFront (category : Category) (tokens rest : List Token) (tree : Expr Unit) : Prop :=
  ∃ phrase : Phrase category, tokens = phrase.tokens ++ rest ∧ phrase.tree = tree

/-- The tokens start with elements of a list, one comma after them included. -/
def DerivesItems (tokens rest : List Token) (trees : List (Expr Unit)) : Prop :=
  (trees = [] ∧ tokens = rest) ∨
    ∃ (phrase : Phrase .elements) (comma : Option (Token.Terminal .comma)),
      tokens = phrase.tokens ++ ((comma.map (·.val)).toList ++ rest) ∧ phrase.tree = .array () trees

/-- An operator of this kind can have a left operand of the class. -/
def Category.Joins (category : Category) (kind : Token.Kind) : Prop :=
  ∀ precedence, Parsing.precedence? kind = some precedence →
    precedence < category.precedence ∨ precedence = category.precedence ∧ kind ≠ .starStar

namespace Parsing

open Token (Terminal)

/-! ## Operators -/

theorem mem_unaryOperators_iff {kind : Token.Kind} : kind ∈ Token.unaryOperators ↔ isUnary kind = true := by
  cases kind <;> decide

theorem precedence?_of_mem_operators {category : Category} {kind : Token.Kind}
    (h : kind ∈ category.operators) : precedence? kind = some category.precedence ∧ kind ≠ .starStar := by
  cases category <;> simp only [Category.operators, List.mem_cons, List.not_mem_nil, or_false] at h
  all_goals rcases h with rfl | rfl | rfl | rfl <;> decide

/-- Every binary operator but `**` makes phrases of a class that has its precedence. -/
theorem exists_mem_operators {kind : Token.Kind} {precedence : Nat} (h : precedence? kind = some precedence)
    (hkind : kind ≠ .starStar) :
    ∃ category : Category, kind ∈ category.operators ∧ category.precedence = precedence := by
  have hfound : ∃ category ∈ [Category.disjunction, .conjunction, .equality, .relation, .sum, .product],
      kind ∈ category.operators ∧ category.precedence = precedence := by
    revert hkind
    cases kind <;> cases h <;> decide
  obtain ⟨category, -, hmem, hprecedence⟩ := hfound
  exact ⟨category, hmem, hprecedence⟩

theorem lt_power_of_ne_starStar {kind : Token.Kind} {precedence : Nat}
    (h : precedence? kind = some precedence) (hkind : kind ≠ .starStar) :
    precedence < Category.power.precedence := by
  revert hkind
  cases kind <;> cases h <;> decide


theorem lt_unary_of_precedence? {kind : Token.Kind} {precedence : Nat}
    (h : precedence? kind = some precedence) : precedence < Category.unary.precedence := by
  cases kind <;> cases h <;> decide

theorem joins_unary (kind : Token.Kind) : Category.unary.Joins kind :=
  fun _ h => .inl (lt_unary_of_precedence? h)

theorem rightPrecedence_le {kind : Token.Kind} {precedence : Nat} (h : precedence? kind = some precedence) :
    rightPrecedence kind precedence ≤ Category.unary.precedence := by
  have hlt := lt_unary_of_precedence? h
  unfold rightPrecedence
  split <;> omega

/-- All that the parser takes is a phrase of the class, and it stands for the result. -/
def TakesOnly (category : Category) (parser : Parser (Expr Place)) : Prop :=
  ∀ cursor, Runs anyFault parser cursor fun e after => DerivesFront category cursor.rest after.rest e.bare

variable {expr : Parser (Expr Place)} {below : Grammar} {start : List Token}

/-! ## Primaries -/

theorem sound_elements (hexpr : TakesOnly .expression expr) (fuel : Nat) (done : List (Expr Place))
    (cursor : Cursor) :
    Runs anyFault (elements expr fuel done) cursor fun items after =>
      ∃ new, items = done.reverse ++ new ∧ DerivesItems cursor.rest after.rest (new.map Expr.bare) := by
  induction fuel generalizing done cursor with
  | zero => exact ⟨[], by simp, .inl ⟨rfl, rfl⟩⟩
  | succ fuel ih =>
    rw [elements, runs_bind, runs_peek]
    split
    · exact ⟨[], by simp, .inl ⟨rfl, rfl⟩⟩
    refine (hexpr cursor).andThen ?_
    rintro e after ⟨phrase, htokens, htree⟩
    rw [runs_bind, runs_peek]
    split
    case isFalse =>
      exact ⟨[e], by simp, .inr ⟨.lastElement phrase, none, htokens, by simp [Phrase.tree, htree]⟩⟩
    case isTrue hcomma =>
      rw [runs_bind, runs_advance]
      refine (ih (e :: done) _).mono ?_
      rintro items last ⟨new, rfl, hnew⟩
      rw [after.rest_eq_cons hcomma (by decide)] at htokens
      refine ⟨e :: new, by simp, .inr ?_⟩
      rcases hnew with ⟨hnil, hrest⟩ | ⟨others, comma, hrest, htrees⟩
      · refine ⟨.lastElement phrase, some ⟨_, hcomma⟩, ?_, ?_⟩
        · rw [htokens, ← hrest]; rfl
        · rw [List.map_cons, hnil, Phrase.tree, htree]
      · refine ⟨.moreElements phrase ⟨_, hcomma⟩ others, comma, ?_, ?_⟩
        · rw [htokens, hrest]
          simp only [Phrase.tokens, List.append_assoc, List.cons_append]
        · rw [Phrase.tree, htrees, htree]
          rfl

/-- A primary that is a single token. -/
theorem sound_leaf {cursor : Cursor} {node : Place → Expr Place} (phrase : Phrase .primary)
    (htokens : phrase.tokens = [cursor.token]) (htree : ∀ place, phrase.tree = (node place).bare) :
    Runs anyFault (do advance; return node (← place cursor.token.start cursor.token.stop [])) cursor
      fun e after => DerivesFront .primary cursor.rest after.rest e.bare := by
  have hkind : cursor.token.kind ≠ .endOfText :=
    Token.Kind.ne_endOfText (phrase.isOuter_tokens _ (by simp [htokens]))
  rw [runs_bind, runs_advance, runs_bind]
  refine runs_anyFault_place fun place => ⟨phrase, ?_, htree place⟩
  rw [htokens, cursor.rest_eq_cons rfl hkind]
  rfl

theorem sound_primary (hexpr : TakesOnly .expression expr) : TakesOnly .primary (primary expr) := by
  intro cursor
  rw [primary, runs_bind, runs_peek]
  split
  case h_1 hkind =>
    split
    · trivial
    · rename_i numeral hnumeral
      exact sound_leaf (.number ⟨_, hkind⟩ numeral hnumeral) rfl fun _ => rfl
  case h_2 hkind => exact sound_leaf (.string ⟨_, hkind⟩) rfl fun _ => rfl
  case h_3 hkind => exact sound_leaf (.trueWord ⟨_, hkind⟩) rfl fun _ => rfl
  case h_4 hkind => exact sound_leaf (.falseWord ⟨_, hkind⟩) rfl fun _ => rfl
  case h_5 hkind => exact sound_leaf (.identifier ⟨_, hkind⟩) rfl fun _ => rfl
  case h_6 hkind =>
    rw [runs_bind, runs_advance]
    refine (hexpr _).andThen ?_
    rintro e after ⟨phrase, htokens, htree⟩
    rw [runs_bind]
    refine runs_anyFault_expect fun hclosing => ?_
    refine ⟨.parenthesized ⟨_, hkind⟩ phrase ⟨_, hclosing⟩, ?_, htree⟩
    rw [cursor.rest_eq_cons hkind (by decide), htokens, after.rest_eq_cons hclosing (by decide)]
    simp only [Phrase.tokens, List.append_assoc, List.cons_append, List.nil_append]
  case h_7 hkind =>
    rw [runs_bind, runs_advance, runs_bind, runs_tokensLeft]
    refine (sound_elements hexpr _ [] _).andThen ?_
    rintro items after ⟨_, rfl, hitems⟩
    rw [runs_bind]
    refine runs_anyFault_expect fun hclosing => ?_
    rw [runs_bind, runs_placeFrom]
    refine runs_anyFault_place fun _ => ?_
    have hbare (place : Place) : (Expr.array place items).bare = .array () (items.map Expr.bare) := by
      rw [Expr.bare, Expr.bareAll_eq_map]
    rw [cursor.rest_eq_cons hkind (by decide)]
    rcases hitems with ⟨hnil, hrest⟩ | ⟨phrase, comma, hrest, htree⟩
    · refine ⟨.emptyArray ⟨_, hkind⟩ ⟨_, hclosing⟩, ?_, ?_⟩
      · rw [hrest, after.rest_eq_cons hclosing (by decide)]
        rfl
      · rw [hbare, hnil, Phrase.tree]
    · refine ⟨.array ⟨_, hkind⟩ phrase comma ⟨_, hclosing⟩, ?_, ?_⟩
      · rw [hrest, after.rest_eq_cons hclosing (by decide)]
        simp only [Phrase.tokens, List.append_assoc, List.cons_append, List.nil_append]
      · rw [hbare, Phrase.tree, htree]
  case h_8 => trivial

/-! ## Postfixes and prefix operators -/

theorem sound_postfixes (hexpr : TakesOnly .expression expr) (fuel : Nat) {object : Expr Place}
    {cursor : Cursor} (hobject : DerivesFront .access start cursor.rest object.bare) :
    Runs anyFault (postfixes expr fuel object) cursor fun e after =>
      DerivesFront .access start after.rest e.bare := by
  induction fuel generalizing object cursor with
  | zero => exact hobject
  | succ fuel ih =>
    rw [postfixes, runs_bind, runs_peek]
    split
    case h_1 hopening =>
      obtain ⟨phrase, hstart, htree⟩ := hobject
      rw [runs_bind, runs_advance]
      refine (hexpr _).andThen ?_
      rintro index after ⟨inner, hinner, hindex⟩
      rw [runs_bind]
      refine runs_anyFault_expect fun hclosing => ?_
      rw [runs_bind, runs_placeFrom]
      refine runs_anyFault_place fun place => ih ⟨.element phrase ⟨_, hopening⟩ inner ⟨_, hclosing⟩, ?_, ?_⟩
      · rw [hstart, cursor.rest_eq_cons hopening (by decide), hinner, after.rest_eq_cons hclosing (by decide)]
        simp only [Phrase.tokens, List.append_assoc, List.cons_append, List.nil_append]
      · rw [Phrase.tree, htree, hindex, Expr.bare]
    case h_2 hdot =>
      obtain ⟨phrase, hstart, htree⟩ := hobject
      rw [runs_bind, runs_advance, runs_bind, runs_peek]
      split
      case isFalse => trivial
      case isTrue hname =>
        rw [runs_bind, runs_advance, runs_bind, runs_placeFrom]
        refine runs_anyFault_place fun place => ih ⟨.property phrase ⟨_, hdot⟩ ⟨_, hname⟩, ?_, ?_⟩
        · rw [hstart, cursor.rest_eq_cons hdot (by decide), cursor.next.rest_eq_cons hname (by decide)]
          simp only [Phrase.tokens, List.append_assoc, List.cons_append, List.nil_append]
        · rw [Phrase.tree, htree, Expr.bare]
    case h_3 => exact hobject

theorem sound_unaryAround (hunary : TakesOnly .unary below.unary) (hexpr : TakesOnly .expression expr) :
    TakesOnly .unary (unaryAround below expr) := by
  intro cursor
  rw [unaryAround, runs_bind, runs_peek]
  split
  case isTrue hoperator =>
    rw [runs_bind, runs_advance]
    refine (hunary _).andThen ?_
    rintro operand after ⟨phrase, htokens, htree⟩
    rw [runs_bind, runs_placeFrom]
    refine runs_anyFault_place fun place => ⟨.unary _ (mem_unaryOperators_iff.mpr hoperator) phrase, ?_, ?_⟩
    · have hkind : cursor.token.kind ≠ .endOfText := fun h => by rw [h] at hoperator; cases hoperator
      rw [cursor.rest_eq_cons rfl hkind, htokens]
      rfl
    · rw [Phrase.tree, htree, Expr.bare]
  case isFalse =>
    refine (sound_primary hexpr cursor).andThen ?_
    rintro object after ⟨phrase, htokens, htree⟩
    rw [runs_bind, runs_tokensLeft]
    refine (sound_postfixes hexpr _ ⟨.tighter rfl phrase, htokens, htree⟩).mono ?_
    rintro e last ⟨phrase, htokens, htree⟩
    exact ⟨.tighter rfl phrase, htokens, htree⟩

/-! ## Binary operators and conditionals -/

/-- What was read is an operand of operators that bind less tightly than `least`, and none that binds as
tightly comes next. -/
structure ReadsOperand (least : Nat) (start : List Token) (e : Expr Place) (after : Cursor) : Prop where
  derives : ∃ category : Category, category ≠ .elements ∧ least ≤ category.precedence ∧
    DerivesFront category start after.rest e.bare
  stops : ∀ precedence, precedence? after.token.kind = some precedence → precedence < least

theorem ReadsOperand.length_le {least : Nat} {e : Expr Place} {after : Cursor}
    (h : ReadsOperand least start e after) : after.rest.length ≤ start.length := by
  obtain ⟨_, -, -, phrase, rfl, -⟩ := h.derives
  rw [List.length_append]
  exact Nat.le_add_left _ _

/-- All that the parsers of the grammar take are phrases. -/
structure Grammar.Sound (grammar : Grammar) : Prop where
  expression : TakesOnly .expression grammar.expression
  binary (least : Nat) (hleast : least ≤ Category.unary.precedence) (cursor : Cursor) :
    Runs anyFault (grammar.binary least) cursor (ReadsOperand least cursor.rest)
  unary : TakesOnly .unary grammar.unary

/-- A left operand, an operator and what was read on the right of it make a phrase, and the next operator
can have that as its left operand. -/
theorem derivesFront_binary {category : Category} {left right : Expr Place} {cursor after : Cursor}
    {precedence : Nat} (hcategory : category ≠ .elements)
    (hleft : DerivesFront category start cursor.rest left.bare) (hjoins : category.Joins cursor.token.kind)
    (hoperator : precedence? cursor.token.kind = some precedence)
    (hright : ReadsOperand (rightPrecedence cursor.token.kind precedence) cursor.next.rest right after)
    (place : Place) :
    ∃ category' : Category, category' ≠ .elements ∧ category'.precedence = precedence ∧
      DerivesFront category' start after.rest (Expr.binary place cursor.token.kind left right).bare ∧
      category'.Joins after.token.kind := by
  obtain ⟨leftPhrase, hstart, hleftTree⟩ := hleft
  obtain ⟨rightCategory, hrightCategory, hrightLe, rightPhrase, hrest, hrightTree⟩ := hright.derives
  have hstops := hright.stops
  have hkind : cursor.token.kind ≠ .endOfText := fun h => by rw [h] at hoperator; cases hoperator
  rw [hstart, cursor.rest_eq_cons rfl hkind, hrest, Expr.bare, ← hleftTree, ← hrightTree]
  by_cases hpower : cursor.token.kind = .starStar
  · obtain rfl : 14 = precedence := by rw [hpower] at hoperator; exact Option.some.inj hoperator
    rw [rightPrecedence, if_pos hpower] at hrightLe hstops
    have hlt : 14 < category.precedence := (hjoins 14 hoperator).resolve_right fun h => h.2 hpower
    obtain ⟨base, hbase, hbaseTree, -⟩ := leftPhrase.exists_looser .unary hcategory hlt
    obtain ⟨exponent, hexponent, hexponentTree, -⟩ :=
      rightPhrase.exists_looser .power hrightCategory hrightLe
    refine ⟨.power, by decide, rfl, ⟨.power base ⟨_, hpower⟩ exponent, ?_, ?_⟩,
      fun q hq => .inl (hstops q hq)⟩
    · rw [Phrase.tokens, hbase, hexponent, List.append_assoc, List.cons_append]
    · rw [Phrase.tree, hbaseTree, hexponentTree]
  · obtain ⟨category', hmem, rfl⟩ := exists_mem_operators hoperator hpower
    rw [rightPrecedence, if_neg hpower] at hrightLe hstops
    have hle : category'.precedence ≤ category.precedence := by
      rcases hjoins _ hoperator with h | h <;> omega
    obtain ⟨next, hnext, -, hnextLe⟩ := Category.exists_next?_of_lt hrightLe hrightCategory
    obtain ⟨left', hleft', hleftTree', -⟩ := leftPhrase.exists_looser _ hcategory hle
    obtain ⟨right', hright', hrightTree', -⟩ := rightPhrase.exists_looser _ hrightCategory hnextLe
    refine ⟨category', ?_, rfl, ⟨.binary hnext left' _ hmem right', ?_, ?_⟩, ?_⟩
    · rintro rfl
      cases hnext
    · rw [Phrase.tokens, hleft', hright', List.append_assoc, List.cons_append]
    · rw [Phrase.tree, hleftTree', hrightTree']
    · intro q hq
      have hlt := lt_power_of_ne_starStar hoperator hpower
      refine (Nat.lt_or_eq_of_le (Nat.le_of_lt_succ (hstops q hq))).imp_right fun heq => ⟨heq, ?_⟩
      intro hstar
      rw [hstar] at hq
      cases hq
      rw [← heq] at hlt
      exact absurd hlt (by decide)

theorem sound_operators (hbelow : below.Sound) (least fuel : Nat) {category : Category} {left : Expr Place}
    {cursor : Cursor} (hcategory : category ≠ .elements) (hleast : least ≤ category.precedence)
    (hleft : DerivesFront category start cursor.rest left.bare) (hjoins : category.Joins cursor.token.kind)
    (hfuel : cursor.rest.length ≤ fuel) :
    Runs anyFault (operators below least fuel left) cursor (ReadsOperand least start) := by
  induction fuel generalizing category left cursor with
  | zero =>
    refine ⟨⟨category, hcategory, hleast, hleft⟩, ?_⟩
    have hnil : cursor.rest = [] := List.eq_nil_of_length_eq_zero (Nat.le_zero.mp hfuel)
    simp [Cursor.token, hnil, endToken, precedence?]
  | succ fuel ih =>
    have hdone : (∀ precedence, precedence? cursor.token.kind = some precedence → precedence < least) →
        ReadsOperand least start left cursor := fun h => ⟨⟨category, hcategory, hleast, hleft⟩, h⟩
    rw [operators, runs_bind, runs_peek]
    dsimp only
    split
    case h_1 hoperator =>
      exact hdone fun precedence h => by rw [hoperator] at h; cases h
    case h_2 precedence hoperator =>
      split
      case isTrue hlt => exact hdone fun q h => by rw [hoperator] at h; cases h; exact hlt
      case isFalse hle =>
        rw [runs_bind, runs_advance]
        refine (hbelow.binary _ (rightPrecedence_le hoperator) cursor.next).andThen ?_
        intro right after hread
        rw [runs_bind, runs_placeFrom]
        refine runs_anyFault_place fun place => ?_
        obtain ⟨category', hcategory', hprecedence, hphrase, hjoins'⟩ :=
          derivesFront_binary hcategory hleft hjoins hoperator hread place
        refine ih hcategory' (by omega) hphrase hjoins' ?_
        have hshorter := hread.length_le
        simp only [Cursor.next, List.length_tail] at hshorter
        omega

theorem sound_conditional (hbelow : below.Sound) : TakesOnly .expression (conditional below) := by
  intro cursor
  rw [conditional]
  refine (hbelow.binary leastPrecedence (by decide) cursor).andThen ?_
  intro condition after hread
  obtain ⟨category, hcategory, hle, phrase, htokens, htree⟩ := hread.derives
  have hlt : Category.expression.precedence < category.precedence := hle
  obtain ⟨next, hnext, -, hnextLe⟩ := Category.exists_next?_of_lt hlt hcategory
  cases hnext
  obtain ⟨phrase', htokens', htree', -⟩ := phrase.exists_looser _ hcategory hnextLe
  rw [← htokens'] at htokens
  rw [← htree'] at htree
  rw [runs_bind, runs_peek]
  split
  case isFalse => exact ⟨.tighter rfl phrase', htokens, htree⟩
  case isTrue hquestion =>
    rw [runs_bind, runs_advance]
    refine (hbelow.expression _).andThen ?_
    rintro whenTrue middle ⟨first, hfirst, hfirstTree⟩
    rw [runs_bind]
    refine runs_anyFault_expect fun hcolon => (hbelow.expression _).andThen ?_
    rintro whenFalse last ⟨second, hsecond, hsecondTree⟩
    rw [runs_bind, runs_placeFrom]
    refine runs_anyFault_place fun place =>
      ⟨.conditional phrase' ⟨_, hquestion⟩ first ⟨_, hcolon⟩ second, ?_, ?_⟩
    · rw [htokens, after.rest_eq_cons hquestion (by decide), hfirst,
        middle.rest_eq_cons hcolon (by decide), hsecond]
      simp only [Phrase.tokens, List.append_assoc, List.cons_append]
    · rw [Phrase.tree, htree, hfirstTree, hsecondTree, Expr.bare]

/-! ## Levels -/

theorem sound_none : Grammar.none.Sound where
  expression _ := trivial
  binary _ _ _ := trivial
  unary _ := trivial

theorem sound_around (hbelow : below.Sound) : below.around.Sound where
  expression := sound_conditional hbelow
  binary least hleast cursor := by
    refine (sound_unaryAround hbelow.unary (sound_conditional hbelow) cursor).andThen ?_
    intro left after hleft
    rw [runs_bind, runs_tokensLeft]
    exact sound_operators hbelow least _ (by decide) hleast hleft (joins_unary _) (Nat.le_refl _)
  unary := sound_unaryAround hbelow.unary (sound_conditional hbelow)

theorem sound_levels (n : Nat) : (Grammar.levels n).Sound := by
  induction n with
  | zero => exact sound_around sound_none
  | succ n ih => exact sound_around ih

end Parsing

end FlowPath
