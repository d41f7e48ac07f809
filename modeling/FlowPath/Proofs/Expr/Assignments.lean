import FlowPath.Proofs.Expr.RoundTrip
import FlowPath.Proofs.Token.Concatenation

/-!
# Assignments, part by part

What is assigned to and what is assigned can be told apart in the tokens of an assignment: no operator that
assigns stands in an expression (`exists_assign_of_parseAssignment`), and a semicolon stands nowhere but at the
end (`eq_nil_of_semicolon`). Where the tokens of an expression stand in a text makes no difference
(`derives_move_iff`). A name or an element can be an operand of any operator, whatever parentheses are around
it (`Phrase.exists_access`).
-/

namespace FlowPath

open Token (Terminal body move tokensFrom)

/-! ## Phrases in other places -/

/-- The tokens are changed in nothing that a phrase goes by. -/
structure Token.KeepsWriting (f : Token → Token) : Prop where
  kind (token : Token) : (f token).kind = token.kind
  text (token : Token) : (f token).text = token.text
  value (token : Token) : (f token).value = token.value

theorem Token.KeepsWriting.mem_kinds {f : Token → Token} (hf : Token.KeepsWriting f) {token : Token}
    {kinds : List Token.Kind} (h : token.kind ∈ kinds) : (f token).kind ∈ kinds := by
  rw [hf.kind]
  exact h

theorem Token.KeepsWriting.parse?_text {f : Token → Token} (hf : Token.KeepsWriting f) {token : Token}
    {numeral : Decimal} (h : Decimal.parse? token.text.toList = some numeral) :
    Decimal.parse? (f token).text.toList = some numeral := by
  rw [hf.text]
  exact h

namespace Phrase

variable {category : Category} {f : Token → Token} (hf : Token.KeepsWriting f)

/-- The tokens of one kind, each of them changed. -/
def mapTerminal {kind : Token.Kind} (token : Terminal kind) : Terminal kind :=
  ⟨f token.val, (hf.kind token.val).trans token.property⟩

/-- The phrase with other tokens. -/
def map {category : Category} : Phrase category → Phrase category
  | .tighter hnext inner => .tighter hnext inner.map
  | .conditional condition question whenTrue colon whenFalse =>
    .conditional condition.map (mapTerminal hf question) whenTrue.map (mapTerminal hf colon) whenFalse.map
  | .binary hnext left operator hoperator right =>
    .binary hnext left.map (f operator) (hf.mem_kinds hoperator) right.map
  | .power base operator exponent => .power base.map (mapTerminal hf operator) exponent.map
  | .unary operator hoperator operand => .unary (f operator) (hf.mem_kinds hoperator) operand.map
  | .element object opening index closing =>
    .element object.map (mapTerminal hf opening) index.map (mapTerminal hf closing)
  | .property object dot name => .property object.map (mapTerminal hf dot) (mapTerminal hf name)
  | .number literal numeral hnumeral =>
    .number (mapTerminal hf literal) numeral (hf.parse?_text hnumeral)
  | .string literal => .string (mapTerminal hf literal)
  | .trueWord word => .trueWord (mapTerminal hf word)
  | .falseWord word => .falseWord (mapTerminal hf word)
  | .identifier name => .identifier (mapTerminal hf name)
  | .parenthesized opening inner closing =>
    .parenthesized (mapTerminal hf opening) inner.map (mapTerminal hf closing)
  | .emptyArray opening closing => .emptyArray (mapTerminal hf opening) (mapTerminal hf closing)
  | .array opening items comma closing =>
    .array (mapTerminal hf opening) items.map (comma.map (mapTerminal hf)) (mapTerminal hf closing)
  | .lastElement first => .lastElement first.map
  | .moreElements first comma others => .moreElements first.map (mapTerminal hf comma) others.map

theorem tokens_map (phrase : Phrase category) : (phrase.map hf).tokens = phrase.tokens.map f := by
  induction phrase with
  | array _ _ comma => cases comma <;> simp_all [map, tokens, mapTerminal]
  | _ => simp_all [map, tokens, mapTerminal]

theorem tree_map (phrase : Phrase category) : (phrase.map hf).tree = phrase.tree := by
  induction phrase with
  | _ => simp_all [map, tree, mapTerminal, hf.kind, hf.text, hf.value]

end Phrase

theorem Derives.map {category : Category} {tokens : List Token} {tree : Expr Unit}
    (h : Derives category tokens tree) {f : Token → Token} (hf : Token.KeepsWriting f) :
    Derives category (tokens.map f) tree := by
  obtain ⟨phrase, rfl, rfl⟩ := h
  exact ⟨phrase.map hf, phrase.tokens_map hf, phrase.tree_map hf⟩

theorem derives_move_iff {category : Category} {tokens : List Token} {tree : Expr Unit} (distance : Nat) :
    Derives category (tokens.map (move distance)) tree ↔ Derives category tokens tree := by
  let back (token : Token) : Token :=
    { token with start := token.start - distance, stop := token.stop - distance }
  have hback : back ∘ move distance = id := by
    funext token
    simp [back, move]
  refine ⟨fun h => ?_, fun h => h.map ⟨fun _ => rfl, fun _ => rfl, fun _ => rfl⟩⟩
  have hmapped := h.map (f := back) ⟨fun _ => rfl, fun _ => rfl, fun _ => rfl⟩
  rwa [List.map_map, hback, List.map_id] at hmapped

/-! ## Names and elements -/

/-- The tree is a name or an element. -/
def Expr.isAccess : Expr Unit → Bool
  | .identifier _ _ | .element _ _ _ => true
  | _ => false

/-- Whatever parentheses are around a name or an element, it can be an operand of all operators. -/
theorem Phrase.exists_access {category : Category} (phrase : Phrase category)
    (h : phrase.tree.isAccess = true) :
    ∃ access : Phrase .access, access.tokens = phrase.tokens ∧ access.tree = phrase.tree := by
  induction phrase with
  | tighter _ inner ih => exact ih h
  | element object opening index closing => exact ⟨.element object opening index closing, rfl, rfl⟩
  | identifier name => exact ⟨.tighter rfl (.identifier name), rfl, rfl⟩
  | parenthesized opening inner closing =>
    exact ⟨.tighter rfl (.parenthesized opening inner closing), rfl, rfl⟩
  | array opening items comma closing =>
    have htree : items.tree.isAccess = true := h
    rw [Parsing.tree_eq_array items] at htree
    cases htree
  | conditional | binary | power | unary | property | number | string | trueWord | falseWord | emptyArray
  | lastElement | moreElements => cases h

/-! ## The parts of an assignment -/

/-- Tokens are told apart at the first operator that assigns. -/
theorem Token.append_cons_inj {front front' back back' : List Token} {operator operator' : Token}
    (hfront : ∀ token ∈ front, token.kind.isInner = true)
    (hfront' : ∀ token ∈ front', token.kind.isInner = true)
    (hoperator : operator.kind.isAssignment = true) (hoperator' : operator'.kind.isAssignment = true)
    (h : front ++ operator :: back = front' ++ operator' :: back') :
    front = front' ∧ operator = operator' ∧ back = back' := by
  have hapart {token : Token} (hinner : token.kind.isInner = true) : token.kind.isAssignment = false := by
    rw [Token.Kind.isInner, Bool.not_eq_true'] at hinner
    exact (Bool.or_eq_false_iff.mp hinner).2
  induction front generalizing front' with
  | nil =>
    cases front' with
    | nil => exact ⟨rfl, List.cons.inj h⟩
    | cons token front' =>
      obtain ⟨rfl, -⟩ := List.cons.inj h
      exact absurd hoperator (Bool.eq_false_iff.mp (hapart (hfront' operator List.mem_cons_self)))
  | cons token front ih =>
    obtain ⟨htoken, hfront⟩ := List.forall_mem_cons.mp hfront
    cases front' with
    | nil =>
      obtain ⟨rfl, -⟩ := List.cons.inj h
      exact absurd hoperator' (Bool.eq_false_iff.mp (hapart htoken))
    | cons token' front' =>
      obtain ⟨rfl, hrest⟩ := List.cons.inj h
      obtain ⟨rfl, hparts⟩ := ih hfront (List.forall_mem_cons.mp hfront').2 hrest
      exact ⟨rfl, hparts⟩

/-- Tokens with an operator that assigns behind an expression are an assignment to it. -/
theorem Declares.exists_assign {front back : List Token} {operator : Token} {word : Option Token.Kind}
    {tree : Expr Unit} (h : Declares (front ++ operator :: back) word tree)
    (hfront : ∀ token ∈ front, token.kind.isInner = true) (hoperator : operator.kind.isAssignment = true) :
    ∃ target value, Derives .expression front target ∧ Derives .expression back value ∧
      tree = .assign () operator.kind target value := by
  have hinner {kind : Token.Kind} (h : kind.isInner = true) :
      kind.isAssignment = false ∧ kind.isDeclaration = false := by
    cases kind <;> first | exact ⟨rfl, rfl⟩ | cases h
  generalize htokens : front ++ operator :: back = tokens at h
  cases h with
  | plain h =>
    cases h with
    | expression h =>
      obtain ⟨phrase, rfl, -⟩ := h
      have hmem : operator ∈ phrase.tokens := htokens ▸ List.mem_append_right _ List.mem_cons_self
      exact absurd hoperator (Bool.eq_false_iff.mp (hinner (phrase.isInner_tokens _ hmem)).1)
    | @assignment _ _ target value _ htarget hoperator' hvalue =>
      obtain ⟨phrase, rfl, rfl⟩ := htarget
      obtain ⟨rfl, rfl, rfl⟩ := Token.append_cons_inj hfront phrase.isInner_tokens hoperator
        (Parsing.mem_assignmentOperators_iff.mp hoperator') htokens
      exact ⟨phrase.tree, value, ⟨phrase, rfl, rfl⟩, hvalue, rfl⟩
  | @declared word _ _ hword _ =>
    have hdeclaration := Parsing.mem_declarationWords_iff.mp hword
    cases front with
    | nil =>
      obtain ⟨rfl, -⟩ := List.cons.inj htokens
      exfalso
      revert hoperator hdeclaration
      cases operator.kind <;> decide
    | cons token front =>
      obtain ⟨rfl, -⟩ := List.cons.inj htokens
      exact absurd hdeclaration (Bool.eq_false_iff.mp (hinner (hfront token List.mem_cons_self)).2)

variable {text : String} {P : List Token → Prop}

/-- No token of a sentence is unknown. -/
theorem IsSentence.kind_ne_unknown (h : IsSentence text P)
    (hP : ∀ tokens, P tokens → ∀ token ∈ tokens, token.kind.isOuter = false) :
    ∀ token ∈ body text, token.kind ≠ .unknown := by
  have hknown {kind : Token.Kind} (h : kind.isOuter = false) : kind ≠ .unknown := by
    rintro rfl
    cases h
  obtain ⟨tokens, htokens, hbody | ⟨semicolon, hbody⟩⟩ := h
  · rw [hbody]
    exact fun token htoken => hknown (hP tokens htokens token htoken)
  · rw [hbody, List.forall_mem_append, List.forall_mem_singleton, semicolon.property]
    exact ⟨fun token htoken => hknown (hP tokens htokens token htoken), by decide⟩

/-- A semicolon stands at the end of a sentence only. -/
theorem IsSentence.eq_nil_of_semicolon (h : IsSentence text P)
    (hP : ∀ tokens, P tokens → ∀ token ∈ tokens, token.kind.isOuter = false) {front back : List Token}
    {semicolon : Token} (hkind : semicolon.kind = .semicolon) (hbody : body text = front ++ semicolon :: back) :
    back = [] := by
  have houter : semicolon.kind.isOuter = true := hkind ▸ rfl
  have hnot {tokens : List Token} (htokens : P tokens) : semicolon ∉ tokens := fun hmem =>
    Bool.false_ne_true ((hP tokens htokens semicolon hmem).symm.trans houter)
  obtain ⟨tokens, htokens, hsentence | ⟨last, hsentence⟩⟩ := h
  · refine absurd ?_ (hnot htokens)
    rw [← hsentence, hbody]
    exact List.mem_append_right _ List.mem_cons_self
  · rcases List.eq_nil_or_concat back with rfl | ⟨others, final, rfl⟩
    · rfl
    · rw [hsentence, List.concat_eq_append, ← List.cons_append, ← List.append_assoc] at hbody
      refine absurd ?_ (hnot htokens)
      rw [(List.append_inj' hbody rfl).1]
      exact List.mem_append_right _ List.mem_cons_self

theorem exists_assign_of_parseAssignment {parsed : Parsed} (h : parseAssignment text = .ok parsed)
    {front back : List Token} {operator : Token} (hbody : body text = front ++ operator :: back)
    (hfront : ∀ token ∈ front, token.kind.isInner = true) (hoperator : operator.kind.isAssignment = true) :
    ∃ target value tokens, Derives .expression front target ∧ Derives .expression tokens value ∧
      parsed.root.bare = .assign () operator.kind target value ∧
      (back = tokens ∨ ∃ semicolon : Terminal .semicolon, back = tokens ++ [semicolon.val]) := by
  obtain ⟨tokens, hdeclares, hsentence | ⟨semicolon, hsentence⟩⟩ := isSentence_of_parseAssignment h
  · rw [← hsentence, hbody] at hdeclares
    obtain ⟨target, value, htarget, hvalue, htree⟩ := hdeclares.exists_assign hfront hoperator
    exact ⟨target, value, back, htarget, hvalue, htree, .inl rfl⟩
  · rw [hbody] at hsentence
    rcases List.eq_nil_or_concat back with rfl | ⟨others, final, rfl⟩
    · obtain ⟨-, hlast⟩ := List.append_inj' hsentence rfl
      rw [(List.cons.inj hlast).1, semicolon.property] at hoperator
      cases hoperator
    · rw [List.concat_eq_append, ← List.cons_append, ← List.append_assoc] at hsentence
      obtain ⟨rfl, hlast⟩ := List.append_inj' hsentence rfl
      obtain ⟨target, value, htarget, hvalue, htree⟩ := hdeclares.exists_assign hfront hoperator
      refine ⟨target, value, others, htarget, hvalue, htree, .inr ⟨semicolon, ?_⟩⟩
      rw [List.concat_eq_append, (List.cons.inj hlast).1]

/-- The tokens of a text that is parsed stand for no other tree. -/
theorem bare_eq_of_derives {parsed : Parsed} (h : parseExpression text = .ok parsed) {tree : Expr Unit}
    (hderives : Derives .expression (body text) tree) : parsed.root.bare = tree := by
  obtain ⟨phrase, htokens, rfl⟩ := hderives
  have hsentence : IsSentence text (· = phrase.tokens) := ⟨phrase.tokens, rfl, .inl htokens.symm⟩
  obtain ⟨tokens, rest, rfl, hrest, hscan⟩ := Parsing.exists_remainder hsentence
  have hF : Parsing.Admits (fun _ => True) Expr.mostLevels phrase.depth phrase.tree.height := fun _ => trivial
  rcases parseExpression_of_phrase phrase hscan hrest hF with ⟨other, hother, htree⟩ | ⟨error, herror, -⟩
  · cases h.symm.trans hother
    exact htree
  · cases h.symm.trans herror

end FlowPath
