import FlowPath.Proofs.Expr.Completeness
import FlowPath.Proofs.Token.Scan

/-!
# The language of the parser

The parser accepts the texts of the grammar and no others, as long as they are not nested too deeply, and
returns the tree that their tokens derive. A semicolon at the end of a text does not count.
-/

namespace FlowPath

open Token (Terminal body)

/-- The tokens of the text, or all but a semicolon at their end, satisfy `P`. -/
def IsSentence (text : String) (P : List Token → Prop) : Prop :=
  ∃ tokens, P tokens ∧
    (body text = tokens ∨ ∃ semicolon : Terminal .semicolon, body text = tokens ++ [semicolon.val])

theorem Derives.isOuter_eq_false {category : Category} {tokens : List Token} {tree : Expr Unit}
    (h : Derives category tokens tree) : ∀ token ∈ tokens, token.kind.isOuter = false := by
  obtain ⟨phrase, rfl, -⟩ := h
  exact phrase.isOuter_tokens

theorem Assigns.isOuter_eq_false {tokens : List Token} {tree : Expr Unit} (h : Assigns tokens tree) :
    ∀ token ∈ tokens, token.kind.isOuter = false := by
  have hoperators : ∀ kind ∈ Token.assignmentOperators, kind.isOuter = false := by decide
  cases h with
  | expression h => exact h.isOuter_eq_false
  | @assignment _ _ _ _ operator htarget hoperator hvalue =>
    rw [List.forall_mem_append, List.forall_mem_cons]
    exact ⟨htarget.isOuter_eq_false, hoperators _ hoperator, hvalue.isOuter_eq_false⟩

theorem Declares.isOuter_eq_false {tokens : List Token} {declaration : Option Token.Kind}
    {tree : Expr Unit} (h : Declares tokens declaration tree) :
    ∀ token ∈ tokens, token.kind.isOuter = false := by
  have hwords : ∀ kind ∈ Token.declarationWords, kind.isOuter = false := by decide
  cases h with
  | plain h => exact h.isOuter_eq_false
  | declared hword h => exact List.forall_mem_cons.mpr ⟨hwords _ hword, h.isOuter_eq_false⟩

namespace Parsing

variable {α : Type} {F : ParseFault → Prop}

theorem run_cases {parser : Parser α} {text : String} {Q : α → Cursor → Prop}
    (h : Runs F parser { rest := Token.scan text } Q) :
    (∃ value after, run parser text = .ok value ∧ Q value after) ∨
      ∃ error, run parser text = .error error ∧ F error.fault := by
  unfold Runs at h
  rcases hrun : parser { rest := Token.scan text } with ⟨offset, fault⟩ | ⟨value, after⟩
  · rw [hrun] at h
    exact .inr ⟨_, by rw [run, hrun], h⟩
  · rw [hrun] at h
    exact .inl ⟨value, after, by rw [run, hrun], h⟩

/-! ## Texts that are accepted -/

theorem mem_assignmentOperators_iff {kind : Token.Kind} :
    kind ∈ Token.assignmentOperators ↔ kind.isAssignment = true := by
  cases kind <;> decide

theorem mem_declarationWords_iff {kind : Token.Kind} :
    kind ∈ Token.declarationWords ↔ kind.isDeclaration = true := by
  cases kind <;> decide

theorem sound_expression (cursor : Cursor) :
    Runs anyFault expression cursor fun e after =>
      ∃ tokens, cursor.rest = tokens ++ after.rest ∧ Derives .expression tokens e.bare :=
  ((sound_levels Expr.mostLevels).expression cursor).mono fun _ _ ⟨phrase, htokens, htree⟩ =>
    ⟨phrase.tokens, htokens, phrase, rfl, htree⟩

theorem sound_assignment (cursor : Cursor) :
    Runs anyFault assignment cursor fun e after =>
      ∃ tokens, cursor.rest = tokens ++ after.rest ∧ Assigns tokens e.bare := by
  rw [assignment]
  refine (sound_expression cursor).andThen ?_
  rintro target after ⟨tokens, htokens, htarget⟩
  rw [runs_bind, runs_peek]
  dsimp only
  split
  case isFalse => exact ⟨tokens, htokens, .expression htarget⟩
  case isTrue hoperator =>
    rw [runs_bind, runs_advance]
    refine (sound_expression after.next).andThen ?_
    rintro value last ⟨tokens', htokens', hvalue⟩
    rw [runs_bind, runs_placeFrom]
    have hkind : after.token.kind ≠ .endOfText := fun h => by rw [h] at hoperator; cases hoperator
    refine runs_anyFault_place fun place => ⟨tokens ++ after.token :: tokens', ?_,
      .assignment htarget (mem_assignmentOperators_iff.mpr hoperator) hvalue⟩
    rw [htokens, after.rest_eq_cons rfl hkind, htokens', List.append_assoc, List.cons_append]

/-- An assignment after what was read makes a sentence with it. -/
theorem sound_declaration (cursor : Cursor) :
    Runs anyFault declaration cursor fun word after =>
      ∃ front, cursor.rest = front ++ after.rest ∧
        ∀ tokens tree, Assigns tokens tree → Declares (front ++ tokens) word tree := by
  rw [declaration, runs_bind, runs_peek]
  split
  case isFalse => exact ⟨[], rfl, fun _ _ h => .plain h⟩
  case isTrue hword =>
    have hkind : cursor.token.kind ≠ .endOfText := fun h => by rw [h] at hword; cases hword
    exact ⟨[cursor.token], cursor.rest_eq_cons rfl hkind,
      fun _ _ h => .declared (mem_declarationWords_iff.mpr hword) h⟩

theorem body_eq_of_token_end {text : String} {tokens : List Token} {cursor : Cursor}
    (hscan : Token.scan text = tokens ++ cursor.rest) (hend : cursor.token.kind = .endOfText)
    (htokens : ∀ token ∈ tokens, token.kind ≠ .endOfText) : body text = tokens := by
  obtain ⟨_ | ⟨token, rest⟩, taken⟩ := cursor
  · obtain ⟨last, hlast, hbody, -⟩ := Token.scan_eq text
    rw [hbody, List.append_nil] at hscan
    exact absurd hlast (htokens last (hscan ▸ List.mem_append_right _ List.mem_cons_self))
  · exact Token.body_eq_of_scan_eq hscan hend

/-- A parser that is at the end of the text has read a sentence. -/
theorem sound_finish {text : String} {tokens : List Token} {P : List Token → Prop} (hP : P tokens)
    (htokens : ∀ token ∈ tokens, token.kind.isOuter = false) {cursor : Cursor}
    (hscan : Token.scan text = tokens ++ cursor.rest) :
    Runs anyFault finish cursor fun _ _ => IsSentence text P := by
  have hends : ∀ token ∈ tokens, token.kind ≠ .endOfText :=
    fun token htoken => Token.Kind.ne_endOfText (htokens token htoken)
  rw [finish, runs_bind, runs_peek]
  dsimp only
  split
  case isTrue hsemicolon =>
    rw [runs_bind, runs_advance, runs_bind, runs_peek]
    split
    case isFalse => trivial
    case isTrue hend =>
      have hkind : cursor.token.kind ≠ .endOfText := by rw [hsemicolon]; decide
      refine ⟨tokens, hP, .inr ⟨⟨cursor.token, hsemicolon⟩, body_eq_of_token_end ?_ hend ?_⟩⟩
      · rw [hscan, cursor.rest_eq_cons hsemicolon (by decide), List.append_assoc, List.singleton_append]
      · exact List.forall_mem_append.mpr ⟨hends, List.forall_mem_singleton.mpr hkind⟩
  case isFalse =>
    rw [runs_bind, runs_peek]
    split
    case isFalse => trivial
    case isTrue hend => exact ⟨tokens, hP, .inl (body_eq_of_token_end hscan hend hends)⟩

/-! ## Texts that must be accepted -/

/-- What is left of a text after its sentence. -/
def IsRemainder (rest : List Token) : Prop :=
  ∃ last : Terminal .endOfText,
    rest = [last.val] ∨ ∃ semicolon : Terminal .semicolon, rest = [semicolon.val, last.val]

theorem exists_remainder {text : String} {P : List Token → Prop} (h : IsSentence text P) :
    ∃ tokens rest, P tokens ∧ IsRemainder rest ∧ Token.scan text = tokens ++ rest := by
  obtain ⟨tokens, hP, hbody⟩ := h
  obtain ⟨last, hlast, hscan, -⟩ := Token.scan_eq text
  rcases hbody with hbody | ⟨semicolon, hbody⟩
  · exact ⟨tokens, _, hP, ⟨⟨last, hlast⟩, .inl rfl⟩, by rw [hscan, hbody]⟩
  · refine ⟨tokens, _, hP, ⟨⟨last, hlast⟩, .inr ⟨semicolon, rfl⟩⟩, ?_⟩
    rw [hscan, hbody, List.append_assoc, List.singleton_append]

theorem IsRemainder.ends {rest : List Token} (h : IsRemainder rest) :
    endsExpression (headKind rest) = true ∧ (headKind rest).isAssignment = false := by
  obtain ⟨last, rfl | ⟨semicolon, rfl⟩⟩ := h <;> rw [headKind_terminal] <;> decide

variable {rest : List Token} {taken : Nat}

theorem complete_finish (h : IsRemainder rest) {Q : Unit → Cursor → Prop} (hQ : ∀ after, Q () after) :
    Runs F finish ⟨rest, taken⟩ Q := by
  obtain ⟨last, rfl | ⟨semicolon, rfl⟩⟩ := h
  · have hne : last.val.kind ≠ .semicolon := by rw [last.property]; decide
    rw [finish, runs_bind, runs_peek, Cursor.token_cons, if_neg hne, runs_bind, runs_peek, Cursor.token_cons,
      if_pos last.property]
    exact hQ _
  · rw [finish, runs_bind, runs_peek, Cursor.token_cons, if_pos semicolon.property, runs_bind, runs_advance,
      Cursor.next_cons, runs_bind, runs_peek, Cursor.token_cons, if_pos last.property]
    exact hQ _

theorem complete_expression (phrase : Phrase .expression) (hends : endsExpression (headKind rest) = true)
    (hF : Admits F Expr.mostLevels phrase.depth phrase.tree.height) (taken : Nat) :
    Runs F expression ⟨phrase.tokens ++ rest, taken⟩ (Reads phrase rest) :=
  (complete_levels Expr.mostLevels).expression phrase rest taken hends (hF.mono (by omega) (Nat.le_refl _))

theorem complete_assignment {tokens : List Token} {tree : Expr Unit} (h : Assigns tokens tree)
    (hrest : IsRemainder rest) (hF : F .tooDeep) (taken : Nat) :
    Runs F assignment ⟨tokens ++ rest, taken⟩ fun e after =>
      e.bare = tree ∧ ∃ taken, after = ⟨rest, taken⟩ := by
  obtain ⟨hends, hassign⟩ := hrest.ends
  rw [assignment]
  cases h with
  | expression h =>
    obtain ⟨phrase, rfl, rfl⟩ := h
    refine (complete_expression phrase hends (fun _ => hF) taken).andThen ?_
    rintro e _ ⟨⟨taken', rfl⟩, htree, -⟩
    rw [runs_bind, runs_peek, kind_token]
    simp only [hassign]
    exact ⟨htree, _, rfl⟩
  | @assignment _ _ _ _ operator htarget hoperator hvalue =>
    obtain ⟨target, rfl, rfl⟩ := htarget
    obtain ⟨value, rfl, rfl⟩ := hvalue
    have hoperators : ∀ kind ∈ Token.assignmentOperators, endsExpression kind = true := by decide
    have hends' : endsExpression (headKind (operator :: (value.tokens ++ rest))) = true :=
      hoperators _ hoperator
    rw [List.append_assoc, List.cons_append]
    refine (complete_expression target hends' (fun _ => hF) taken).andThen ?_
    rintro e _ ⟨⟨taken', rfl⟩, htree, -⟩
    rw [runs_bind, runs_peek, Cursor.token_cons]
    simp only [mem_assignmentOperators_iff.mp hoperator, if_true]
    rw [runs_bind, runs_advance, Cursor.next_cons]
    refine (complete_expression value hends (fun _ => hF) _).andThen ?_
    rintro e' _ ⟨⟨taken', rfl⟩, htree', -⟩
    rw [runs_bind, runs_placeFrom, runs_place]
    split
    · exact hF
    · exact ⟨by rw [Expr.bare, htree, htree'], _, rfl⟩

/-- No declaring word is the first token of an assignment. -/
theorem isDeclaration_headKind {tokens : List Token} {tree : Expr Unit} (h : Assigns tokens tree)
    (rest : List Token) : (headKind (tokens ++ rest)).isDeclaration = false := by
  have hdisjoint : ∀ kind ∈ Token.declarationWords, kind ∉ Category.expression.starts := by decide
  have hfirst (phrase : Phrase .expression) (rest : List Token) :
      (headKind (phrase.tokens ++ rest)).isDeclaration = false :=
    Bool.eq_false_iff.mpr fun h =>
      headKind_ne_of_not_mem phrase (hdisjoint _ (mem_declarationWords_iff.mpr h)) rest rfl
  cases h with
  | expression h =>
    obtain ⟨phrase, rfl, -⟩ := h
    exact hfirst phrase rest
  | assignment h =>
    obtain ⟨phrase, rfl, -⟩ := h
    rw [List.append_assoc]
    exact hfirst phrase _

theorem complete_declaration {tokens : List Token} {word : Option Token.Kind} {tree : Expr Unit}
    (h : Declares tokens word tree) (rest : List Token) (taken : Nat) :
    Runs F declaration ⟨tokens ++ rest, taken⟩ fun found after => found = word ∧
      ∃ tokens taken, Assigns tokens tree ∧ after = ⟨tokens ++ rest, taken⟩ := by
  rw [declaration, runs_bind, runs_peek]
  cases h with
  | plain h =>
    rw [kind_token]
    simp only [isDeclaration_headKind h rest]
    exact ⟨rfl, tokens, taken, h, rfl⟩
  | @declared word tokens _ hword h =>
    rw [List.cons_append, Cursor.token_cons, if_pos (mem_declarationWords_iff.mp hword), runs_bind,
      runs_advance]
    exact ⟨rfl, tokens, word.stop, h, rfl⟩

end Parsing

/-! ## Expressions and assignments -/

open Parsing

variable {text : String}

theorem isSentence_of_parseExpression {parsed : Parsed} (h : parseExpression text = .ok parsed) :
    parsed.declaration = none ∧ IsSentence text (Derives .expression · parsed.root.bare) := by
  have hruns : Runs anyFault (do
      let root ← expression
      finish
      return ({ declaration := none, root } : Parsed))
      { rest := Token.scan text } fun parsed _ =>
        parsed.declaration = none ∧ IsSentence text (Derives .expression · parsed.root.bare) := by
    refine (sound_expression _).andThen ?_
    rintro root after ⟨tokens, htokens, hderives⟩
    exact (sound_finish hderives hderives.isOuter_eq_false htokens).andThen
      fun _ _ hsentence => ⟨rfl, hsentence⟩
  rcases run_cases hruns with ⟨value, after, hrun, hvalue⟩ | ⟨error, hrun, -⟩
  · cases h.symm.trans hrun
    exact hvalue
  · cases h.symm.trans hrun

theorem isSentence_of_parseAssignment {parsed : Parsed} (h : parseAssignment text = .ok parsed) :
    IsSentence text (Declares · parsed.declaration parsed.root.bare) := by
  have hruns : Runs anyFault (do
      let declaration ← declaration
      let root ← assignment
      finish
      return ({ declaration, root } : Parsed)) { rest := Token.scan text } fun parsed _ =>
        IsSentence text (Declares · parsed.declaration parsed.root.bare) := by
    refine (sound_declaration _).andThen ?_
    rintro word between ⟨front, hfront, hword⟩
    refine (sound_assignment between).andThen ?_
    rintro root after ⟨tokens, htokens, hassigns⟩
    have hdeclares := hword tokens root.bare hassigns
    rw [htokens, ← List.append_assoc] at hfront
    exact (sound_finish hdeclares hdeclares.isOuter_eq_false hfront).andThen fun _ _ hsentence => hsentence
  rcases run_cases hruns with ⟨value, after, hrun, hvalue⟩ | ⟨error, hrun, -⟩
  · cases h.symm.trans hrun
    exact hvalue
  · cases h.symm.trans hrun

/-- A text whose tokens derive a tree is parsed to it, unless it goes too deep and that is admitted. -/
theorem parseExpression_of_phrase {F : ParseFault → Prop} (phrase : Phrase .expression) {rest : List Token}
    (hscan : Token.scan text = phrase.tokens ++ rest) (hrest : IsRemainder rest)
    (hF : Admits F Expr.mostLevels phrase.depth phrase.tree.height) :
    (∃ parsed, parseExpression text = .ok parsed ∧ parsed.root.bare = phrase.tree) ∨
      ∃ error, parseExpression text = .error error ∧ F error.fault := by
  have hruns : Runs F (do let root ← expression; finish; return ({ declaration := none, root } : Parsed))
      { rest := Token.scan text } fun parsed _ => parsed.root.bare = phrase.tree := by
    rw [hscan]
    refine (complete_expression phrase hrest.ends.1 hF 0).andThen ?_
    rintro root _ ⟨⟨taken, rfl⟩, htree, -⟩
    rw [runs_bind]
    exact complete_finish hrest fun _ => htree
  exact (run_cases hruns).imp_left fun ⟨parsed, _, hrun, htree⟩ => ⟨parsed, hrun, htree⟩

theorem parseAssignment_of_declares {word : Option Token.Kind} {tree : Expr Unit}
    (h : IsSentence text (Declares · word tree)) :
    (∃ parsed, parseAssignment text = .ok parsed ∧ parsed.declaration = word ∧ parsed.root.bare = tree) ∨
      ∃ error, parseAssignment text = .error error ∧ error.fault = .tooDeep := by
  obtain ⟨tokens, rest, hdeclares, hrest, hscan⟩ := exists_remainder h
  have hruns : Runs (· = .tooDeep) (do
      let declaration ← declaration
      let root ← assignment
      finish
      return ({ declaration, root } : Parsed)) { rest := Token.scan text } fun parsed _ =>
        parsed.declaration = word ∧ parsed.root.bare = tree := by
    rw [hscan]
    refine (complete_declaration hdeclares rest 0).andThen ?_
    rintro _ _ ⟨rfl, tokens, taken, hassigns, rfl⟩
    refine (complete_assignment (F := (· = .tooDeep)) hassigns hrest rfl taken).andThen ?_
    rintro root _ ⟨htree, taken', rfl⟩
    rw [runs_bind]
    exact complete_finish hrest fun _ => ⟨rfl, htree⟩
  exact (run_cases hruns).imp_left fun ⟨parsed, _, hrun, hparsed⟩ => ⟨parsed, hrun, hparsed⟩

/-- The parser accepts exactly its grammar. What it returns for a text is the tree that the tokens of the
text derive, at most one semicolon at their end left out; and where the tokens derive a tree, it returns
that tree or refuses the text as nested too deeply. That holds of expressions, and of assignments with or
without a declaring word. No literal stands in the way: every number that is scanned has a value. -/
theorem parse_exactly_sentences (text : String) :
    (∀ parsed, parseExpression text = .ok parsed →
      parsed.declaration = none ∧ IsSentence text (Derives .expression · parsed.root.bare)) ∧
    (∀ tree, IsSentence text (Derives .expression · tree) →
      (∃ parsed, parseExpression text = .ok parsed ∧ parsed.root.bare = tree) ∨
        ∃ error, parseExpression text = .error error ∧ error.fault = .tooDeep) ∧
    (∀ parsed, parseAssignment text = .ok parsed →
      IsSentence text (Declares · parsed.declaration parsed.root.bare)) ∧
    (∀ word tree, IsSentence text (Declares · word tree) →
      (∃ parsed, parseAssignment text = .ok parsed ∧ parsed.declaration = word ∧ parsed.root.bare = tree) ∨
        ∃ error, parseAssignment text = .error error ∧ error.fault = .tooDeep) ∧
    (∀ token ∈ body text, token.kind = .number →
      ∃ numeral, Decimal.parse? token.text.toList = some numeral) ∧
    ParseFault.tooDeep.message = "expression nests deeper than 256 levels" := by
  refine ⟨fun _ => isSentence_of_parseExpression, ?_, fun _ => isSentence_of_parseAssignment,
    fun _ _ => parseAssignment_of_declares, fun _ => Token.exists_numeral_of_mem_body, by decide⟩
  intro tree h
  obtain ⟨tokens, rest, ⟨phrase, rfl, rfl⟩, hrest, hscan⟩ := exists_remainder h
  have hF : Admits (· = .tooDeep) Expr.mostLevels phrase.depth phrase.tree.height := fun _ => rfl
  exact parseExpression_of_phrase phrase hscan hrest hF

/-- A declaration with operators of many classes and a list that ends in a comma is a sentence, since it is
parsed. And from the derivation of a negation followed by a semicolon it is known what parsing gives. -/
theorem parse_exactly_sentences_negation :
    (∃ parsed, parseAssignment "let t = -a ** 2 * b[0].size < 3 ? [x, 'y',] : z;" = .ok parsed ∧
      IsSentence "let t = -a ** 2 * b[0].size < 3 ? [x, 'y',] : z;"
        (Declares · parsed.declaration parsed.root.bare)) ∧
    (∃ parsed, parseExpression "!x;" = .ok parsed ∧
      parsed.root.bare = .unary () .bang (.identifier () "x")) := by
  constructor
  · have hok :
        (parseAssignment "let t = -a ** 2 * b[0].size < 3 ? [x, 'y',] : z;").toOption.isSome = true := by
      decide +kernel
    rcases hparse : parseAssignment "let t = -a ** 2 * b[0].size < 3 ? [x, 'y',] : z;" with e | parsed
    · rw [hparse] at hok
      cases hok
    · exact ⟨parsed, rfl, (parse_exactly_sentences _).2.2.1 parsed hparse⟩
  · let bang : Token := { kind := .bang, start := 0, stop := 1, text := "!", value := "", fault := none }
    let x : Terminal .identifier :=
      ⟨{ kind := .identifier, start := 1, stop := 2, text := "x", value := "", fault := none }, rfl⟩
    let semicolon : Terminal .semicolon :=
      ⟨{ kind := .semicolon, start := 2, stop := 3, text := ";", value := "", fault := none }, rfl⟩
    let negation : Phrase .unary := .unary bang (by decide) (.tighter rfl (.tighter rfl (.identifier x)))
    obtain ⟨phrase, htokens, htree, -⟩ := negation.exists_looser .expression (by decide) (by decide)
    have hbody : body "!x;" = negation.tokens ++ [semicolon.val] := by decide +kernel
    have hsentence : IsSentence "!x;" (Derives .expression · negation.tree) :=
      ⟨negation.tokens, ⟨phrase, htokens, htree⟩, .inr ⟨semicolon, hbody⟩⟩
    refine ((parse_exactly_sentences "!x;").2.1 negation.tree hsentence).resolve_right ?_
    rintro ⟨error, herror, -⟩
    have hok : (parseExpression "!x;").toOption.isSome = true := by decide +kernel
    rw [herror] at hok
    cases hok

end FlowPath
