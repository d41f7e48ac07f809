import FlowPath.Proofs.Expr.Spans
import FlowPath.Proofs.Number.Numerals

/-!
# Number literals

The numbers of a text are its tokens of kind `number`, each with the number that its text converts to
(`Token.literals`). The numbers of a parsed tree (`Expr.literals`) are the same, in the same places and in the same
order, and no text is refused because of a numeral (`KeepsLiterals`).

Both come from one pass through the parsers: as long as the numbers that are left convert, a parser does not fail
at a numeral, and what it returns holds the numbers of the tokens it took (`Gathers`).
-/

namespace FlowPath

/-- The numbers among the tokens: where each of them stands, and what its text converts to. -/
def Token.literals (tokens : List Token) : List (Span × Float) :=
  (tokens.filter (·.kind = .number)).map fun token =>
    ({ start := token.start, stop := token.stop }, (Value.string token.text).toNumber)

theorem Token.literals_append (front rest : List Token) :
    literals (front ++ rest) = literals front ++ literals rest := by
  rw [literals, List.filter_append, List.map_append]
  rfl

theorem Token.literals_singleton_of_ne {token : Token} (h : token.kind ≠ .number) : literals [token] = [] := by
  simp [literals, h]

namespace Expr

def literal? : Expr Place → Option (Span × Float)
  | .number note value => some (note.span, value)
  | _ => none

/-- The numbers of a tree with the places where they stand, in the order of the text. -/
def literals (e : Expr Place) : List (Span × Float) := e.postorder.filterMap literal?

/-- A node that is no number has the numbers of its children. -/
theorem literals_eq_flatMap {e : Expr Place} (h : e.literal? = none) : e.literals = e.children.flatMap literals := by
  rw [literals, postorder_eq, List.filterMap_append, List.filterMap_cons_none h, List.filterMap_nil, List.append_nil,
    List.filterMap_flatMap]
  rfl

end Expr

namespace Parsing

/-! ## What is gathered on the way -/

/-- The number tokens that are left convert. -/
def Cursor.Converts (cursor : Cursor) : Prop := ∀ token ∈ cursor.rest, token.kind = .number → token.Converts

/-- The tokens from `start` up to the cursor hold the numbers `found`, and those after it convert. -/
structure Gathered (start : List Token) (found : List (Span × Float)) (cursor : Cursor) : Prop where
  converts : cursor.Converts
  exists_taken : ∃ taken, start = taken ++ cursor.rest ∧ found = Token.literals taken

variable {start : List Token} {found : List (Span × Float)} {cursor after : Cursor}

theorem Gathered.nothing (h : cursor.Converts) : Gathered cursor.rest [] cursor := ⟨h, [], rfl, rfl⟩

theorem Gathered.append (h : Gathered start found cursor) {more : List (Span × Float)}
    (hmore : Gathered cursor.rest more after) : Gathered start (found ++ more) after := by
  obtain ⟨-, taken, rfl, rfl⟩ := h
  obtain ⟨hafter, others, hothers, rfl⟩ := hmore
  exact ⟨hafter, taken ++ others, by rw [hothers, List.append_assoc], (Token.literals_append taken others).symm⟩

/-- One more token is taken. -/
theorem Gathered.token (h : Gathered start found cursor) (hend : cursor.token.kind ≠ .endOfText) :
    Gathered start (found ++ Token.literals [cursor.token]) cursor.next := by
  have hrest := cursor.rest_eq_cons rfl hend
  have hconverts := h.converts
  rw [Cursor.Converts, hrest] at hconverts
  exact h.append ⟨(List.forall_mem_cons.mp hconverts).2, [cursor.token], hrest, rfl⟩

/-- A token is taken that is no number. -/
theorem Gathered.next (h : Gathered start found cursor) {kind : Token.Kind} (htoken : cursor.token.kind = kind)
    (hend : kind ≠ .endOfText) (hnumber : kind ≠ .number) : Gathered start found cursor.next := by
  subst htoken
  have hnext := h.token hend
  rwa [Token.literals_singleton_of_ne hnumber, List.append_nil] at hnext

/-- A token is taken of a class without numbers. -/
theorem Gathered.nextIn (h : Gathered start found cursor) (p : Token.Kind → Bool)
    (htoken : p cursor.token.kind = true) (hend : p .endOfText = false) (hnumber : p .number = false) :
    Gathered start found cursor.next :=
  h.next rfl (fun heq => by simp [heq, hend] at htoken) fun heq => by simp [heq, hnumber] at htoken

/-- What was gathered are the numbers of a node whose children were read. -/
theorem Gathered.node (h : Gathered start found cursor) {e : Expr Place} (he : e.literal? = none)
    (hchildren : e.children.flatMap Expr.literals = found) : Gathered start e.literals cursor := by
  rwa [Expr.literals_eq_flatMap he, hchildren]

/-- Any fault but a numeral that cannot be read. -/
def NoNumeral (fault : ParseFault) : Prop := ∀ text, fault ≠ .badNumeral text

theorem noNumeral_unexpectedToken (token : Token) : NoNumeral (unexpectedToken token) := by
  intro text
  unfold unexpectedToken
  split
  · exact ParseFault.noConfusion
  · split <;> exact ParseFault.noConfusion

theorem runs_place_gathered {first stop : Nat} {children : List (Expr Place)} {Q : Place → Cursor → Prop}
    (h : ∀ height, Q ⟨⟨first, stop⟩, height⟩ cursor) : Runs NoNumeral (place first stop children) cursor Q := by
  rw [runs_place]
  split
  · exact fun _ => ParseFault.noConfusion
  · exact h _

theorem runs_expect_gathered (h : Gathered start found cursor) {kind : Token.Kind} (hend : kind ≠ .endOfText)
    (hnumber : kind ≠ .number) {Q : Unit → Cursor → Prop} (hQ : Gathered start found cursor.next → Q () cursor.next) :
    Runs NoNumeral (expect kind) cursor Q := by
  rw [runs_expect]
  split
  · exact hQ (h.next ‹_› hend hnumber)
  · exact fun _ => ParseFault.noConfusion

/-- The parser fails at no numeral, and what it returns holds the numbers of the tokens that it takes. -/
def Gathers (parser : Parser (Expr Place)) : Prop :=
  ∀ cursor : Cursor, cursor.Converts →
    Runs NoNumeral parser cursor fun e after => Gathered cursor.rest e.literals after

variable {expr : Parser (Expr Place)} {below : Grammar}

/-- The parser goes on from what was gathered before. -/
theorem Gathers.runs {parser : Parser (Expr Place)} (hparser : Gathers parser) (h : Gathered start found cursor) :
    Runs NoNumeral parser cursor fun e after => Gathered start (found ++ e.literals) after :=
  (hparser cursor h.converts).mono fun _ _ he => h.append he

/-! ## Primaries -/

theorem gathers_elements (hexpr : Gathers expr) (fuel : Nat) (done : List (Expr Place)) {cursor : Cursor}
    (h : Gathered start (done.reverse.flatMap Expr.literals) cursor) :
    Runs NoNumeral (elements expr fuel done) cursor fun items after =>
      Gathered start (items.flatMap Expr.literals) after := by
  induction fuel generalizing done cursor with
  | zero => exact h
  | succ fuel ih =>
    rw [elements, runs_bind, runs_peek]
    split
    · exact h
    refine (hexpr.runs h).andThen ?_
    intro e after he
    have hdone : Gathered start ((e :: done).reverse.flatMap Expr.literals) after := by
      rwa [List.reverse_cons, List.flatMap_append, List.flatMap_singleton]
    rw [runs_bind, runs_peek]
    split
    case isFalse => exact hdone
    case isTrue hcomma =>
      rw [runs_bind, runs_advance]
      exact ih (e :: done) (hdone.next hcomma (by decide) (by decide))

/-- A primary that is a single token. -/
theorem gathers_leaf (hcursor : cursor.Converts) {kind : Token.Kind} (htoken : cursor.token.kind = kind)
    (hend : kind ≠ .endOfText) (node : Place → Expr Place)
    (hnode : ∀ height, (node ⟨⟨cursor.token.start, cursor.token.stop⟩, height⟩).literals =
      Token.literals [cursor.token]) :
    Runs NoNumeral (do advance; return node (← place cursor.token.start cursor.token.stop [])) cursor
      fun e after => Gathered cursor.rest e.literals after := by
  rw [runs_bind, runs_advance, runs_bind]
  refine runs_place_gathered fun height => ?_
  have htaken := (Gathered.nothing hcursor).token (by rwa [htoken])
  rw [List.nil_append, ← hnode height] at htaken
  exact htaken

theorem gathers_primary (hexpr : Gathers expr) : Gathers (primary expr) := by
  intro cursor hcursor
  have hstart := Gathered.nothing hcursor
  have hleaf {kind : Token.Kind} (hkind : cursor.token.kind = kind) (hnumber : kind ≠ .number) :
      Token.literals [cursor.token] = [] := Token.literals_singleton_of_ne (hkind ▸ hnumber)
  rw [primary, runs_bind, runs_peek]
  split
  case h_1 hkind =>
    -- The token is one of those that are left, so it converts, and the value is what its text converts to.
    have hmem : cursor.token ∈ cursor.rest := cursor.rest_eq_cons hkind (by decide) ▸ List.mem_cons_self
    obtain ⟨numeral, hparse, hvalue⟩ := hcursor cursor.token hmem hkind
    simp only [hparse]
    refine gathers_leaf hcursor hkind (by decide) (.number · numeral.toFloat) fun height => ?_
    rw [hvalue]
    simp [Token.literals, hkind, Expr.literals, Expr.postorder, Expr.literal?]
  case h_2 hkind | h_3 hkind | h_4 hkind | h_5 hkind =>
    exact gathers_leaf hcursor hkind (by decide) _ fun _ => (hleaf hkind (by decide)).symm
  case h_6 hopening =>
    rw [runs_bind, runs_advance]
    refine (hexpr.runs (hstart.next hopening (by decide) (by decide))).andThen ?_
    intro e after he
    rw [runs_bind]
    exact runs_expect_gathered he (by decide) (by decide) id
  case h_7 hopening =>
    rw [runs_bind, runs_advance, runs_bind, runs_tokensLeft]
    refine (gathers_elements hexpr _ [] (hstart.next hopening (by decide) (by decide))).andThen ?_
    intro items after hitems
    rw [runs_bind]
    refine runs_expect_gathered hitems (by decide) (by decide) fun hclosed => ?_
    rw [runs_bind, runs_placeFrom]
    exact runs_place_gathered fun height => hclosed.node rfl rfl
  case h_8 => exact noNumeral_unexpectedToken _

/-! ## Postfixes and operators -/

theorem gathers_postfixes (hexpr : Gathers expr) (fuel : Nat) {object : Expr Place} {cursor : Cursor}
    (h : Gathered start object.literals cursor) :
    Runs NoNumeral (postfixes expr fuel object) cursor fun e after => Gathered start e.literals after := by
  induction fuel generalizing object cursor with
  | zero => exact h
  | succ fuel ih =>
    rw [postfixes, runs_bind, runs_peek]
    split
    case h_1 hopening =>
      rw [runs_bind, runs_advance]
      refine (hexpr.runs (h.next hopening (by decide) (by decide))).andThen ?_
      intro index after hindex
      rw [runs_bind]
      refine runs_expect_gathered hindex (by decide) (by decide) fun hclosed => ?_
      rw [runs_bind, runs_placeFrom]
      exact runs_place_gathered fun height => ih (hclosed.node rfl (by simp [Expr.children]))
    case h_2 hdot =>
      have hnext := h.next hdot (by decide) (by decide)
      rw [runs_bind, runs_advance, runs_bind, runs_peek]
      split
      case isFalse => exact fun _ => ParseFault.noConfusion
      case isTrue hname =>
        have hlast := hnext.next hname (by decide) (by decide)
        rw [runs_bind, runs_advance, runs_bind, runs_placeFrom]
        exact runs_place_gathered fun height => ih (hlast.node rfl (by simp [Expr.children]))
    case h_3 => exact h

theorem gathers_unaryAround (hunary : Gathers below.unary) (hexpr : Gathers expr) :
    Gathers (unaryAround below expr) := by
  intro cursor hcursor
  rw [unaryAround, runs_bind, runs_peek]
  split
  case isTrue hoperator =>
    rw [runs_bind, runs_advance]
    refine (hunary.runs ((Gathered.nothing hcursor).nextIn isUnary hoperator rfl rfl)).andThen ?_
    intro operand after hoperand
    rw [runs_bind, runs_placeFrom]
    exact runs_place_gathered fun height => hoperand.node rfl (by simp [Expr.children])
  case isFalse =>
    refine (gathers_primary hexpr cursor hcursor).andThen ?_
    intro object after hobject
    rw [runs_bind, runs_tokensLeft]
    exact gathers_postfixes hexpr _ hobject

/-- What the parsers of the grammar return holds the numbers of the tokens that they take. -/
structure Grammar.Gathers (grammar : Grammar) : Prop where
  expression : Parsing.Gathers grammar.expression
  binary (least : Nat) : Parsing.Gathers (grammar.binary least)
  unary : Parsing.Gathers grammar.unary

theorem gathers_operators (hbelow : below.Gathers) (least fuel : Nat) {left : Expr Place} {cursor : Cursor}
    (h : Gathered start left.literals cursor) :
    Runs NoNumeral (operators below least fuel left) cursor fun e after => Gathered start e.literals after := by
  induction fuel generalizing left cursor with
  | zero => exact h
  | succ fuel ih =>
    rw [operators, runs_bind, runs_peek]
    dsimp only
    split
    case h_1 => exact h
    case h_2 precedence hoperator =>
      split
      case isTrue => exact h
      case isFalse =>
        have hnext := h.nextIn (fun kind => (precedence? kind).isSome) (by rw [hoperator]; rfl) rfl rfl
        rw [runs_bind, runs_advance]
        refine ((hbelow.binary _).runs hnext).andThen ?_
        intro right after hright
        rw [runs_bind, runs_placeFrom]
        exact runs_place_gathered fun height => ih (hright.node rfl (by simp [Expr.children]))

theorem gathers_conditional (hbelow : below.Gathers) : Gathers (conditional below) := by
  intro cursor hcursor
  rw [conditional]
  refine (hbelow.binary _ cursor hcursor).andThen ?_
  intro condition after hcondition
  rw [runs_bind, runs_peek]
  split
  case isFalse => exact hcondition
  case isTrue hquestion =>
    rw [runs_bind, runs_advance]
    refine (hbelow.expression.runs (hcondition.next hquestion (by decide) (by decide))).andThen ?_
    intro whenTrue middle hwhenTrue
    rw [runs_bind]
    refine runs_expect_gathered hwhenTrue (by decide) (by decide) fun hcolon => ?_
    refine (hbelow.expression.runs hcolon).andThen ?_
    intro whenFalse last hwhenFalse
    rw [runs_bind, runs_placeFrom]
    exact runs_place_gathered fun height => hwhenFalse.node rfl (by simp [Expr.children])

/-! ## Levels -/

theorem gathers_none : Grammar.none.Gathers where
  expression _ _ _ := ParseFault.noConfusion
  binary _ _ _ _ := ParseFault.noConfusion
  unary _ _ _ := ParseFault.noConfusion

theorem gathers_around (hbelow : below.Gathers) : below.around.Gathers where
  expression := gathers_conditional hbelow
  binary least cursor hcursor := by
    refine (gathers_unaryAround hbelow.unary (gathers_conditional hbelow) cursor hcursor).andThen ?_
    intro left after hleft
    rw [runs_bind, runs_tokensLeft]
    exact gathers_operators hbelow least _ hleft
  unary := gathers_unaryAround hbelow.unary (gathers_conditional hbelow)

theorem gathers_levels (n : Nat) : (Grammar.levels n).Gathers := by
  induction n with
  | zero => exact gathers_around gathers_none
  | succ n ih => exact gathers_around ih

theorem gathers_expression : Gathers expression := (gathers_levels Expr.mostLevels).expression

theorem gathers_assignment : Gathers assignment := by
  intro cursor hcursor
  rw [assignment]
  refine (gathers_expression cursor hcursor).andThen ?_
  intro target after htarget
  rw [runs_bind, runs_peek]
  dsimp only
  split
  case isFalse => exact htarget
  case isTrue hoperator =>
    rw [runs_bind, runs_advance]
    refine (gathers_expression.runs (htarget.nextIn Token.Kind.isAssignment hoperator rfl rfl)).andThen ?_
    intro value last hvalue
    rw [runs_bind, runs_placeFrom]
    exact runs_place_gathered fun height => hvalue.node rfl (by simp [Expr.children])

theorem gathered_declaration (hcursor : cursor.Converts) :
    Runs NoNumeral declaration cursor fun _ after => Gathered cursor.rest [] after := by
  rw [declaration, runs_bind, runs_peek]
  split
  case isFalse => exact .nothing hcursor
  case isTrue hword => exact (Gathered.nothing hcursor).nextIn Token.Kind.isDeclaration hword rfl rfl

/-! ## Texts -/

variable {text : String}

theorem converts_scan (text : String) : Cursor.Converts { rest := Token.scan text } :=
  fun _ => Token.converts_of_mem_scan

/-- At the end of a text all its numbers are gathered. -/
theorem Gathered.eq_literals_scan (h : Gathered (Token.scan text) found cursor)
    (hend : cursor.token.kind = .endOfText) : found = Token.literals (Token.scan text) := by
  obtain ⟨-, taken, hscan, rfl⟩ := h
  obtain ⟨_ | ⟨token, rest⟩, offset⟩ := cursor
  · rw [hscan, List.append_nil]
  · obtain ⟨last, hkind, hbody, -⟩ := Token.scan_eq text
    rw [hbody, Token.body_eq_of_scan_eq hscan hend, Token.literals_append,
      Token.literals_singleton_of_ne (by rw [hkind]; decide), List.append_nil]

theorem gathered_finish (h : Gathered (Token.scan text) found cursor) :
    Runs NoNumeral finish cursor fun _ _ => found = Token.literals (Token.scan text) := by
  have hlast {cursor : Cursor} (h : Gathered (Token.scan text) found cursor) :
      Runs NoNumeral (do
        let token ← peek
        if token.kind = .endOfText then return () else fail (unexpectedToken token)) cursor
        fun _ _ => found = Token.literals (Token.scan text) := by
    rw [runs_bind, runs_peek]
    split
    case isTrue hend => exact h.eq_literals_scan hend
    case isFalse => exact noNumeral_unexpectedToken _
  rw [finish, runs_bind, runs_peek]
  dsimp only
  split
  case isTrue hsemicolon =>
    rw [runs_bind, runs_advance]
    exact hlast (h.next hsemicolon (by decide) (by decide))
  case isFalse => exact hlast h

end Parsing

open Parsing

variable {text : String}

/-- A text has a tree with the numbers of the text, or it is refused for another reason than a numeral. -/
def KeepsLiterals (text : String) (result : Except ParseError Parsed) : Prop :=
  (∃ parsed, result = .ok parsed ∧ parsed.root.literals = Token.literals (Token.scan text)) ∨
    ∃ error, result = .error error ∧ NoNumeral error.fault

theorem keepsLiterals_parseExpression (text : String) : KeepsLiterals text (parseExpression text) := by
  have hruns : Runs NoNumeral (do
      let root ← expression
      finish
      return ({ declaration := none, root } : Parsed))
      { rest := Token.scan text } fun parsed _ => parsed.root.literals = Token.literals (Token.scan text) :=
    (gathers_expression _ (converts_scan text)).andThen fun root after hroot =>
      (gathered_finish hroot).andThen fun _ _ hliterals => hliterals
  exact (run_cases hruns).imp_left fun ⟨parsed, _, hrun, hliterals⟩ => ⟨parsed, hrun, hliterals⟩

theorem keepsLiterals_parseAssignment (text : String) : KeepsLiterals text (parseAssignment text) := by
  have hruns : Runs NoNumeral (do
      let declaration ← declaration
      let root ← assignment
      finish
      return ({ declaration, root } : Parsed))
      { rest := Token.scan text } fun parsed _ => parsed.root.literals = Token.literals (Token.scan text) := by
    refine (gathered_declaration (converts_scan text)).andThen fun word between hbetween => ?_
    refine (gathers_assignment.runs hbetween).andThen fun root after hroot => ?_
    exact (gathered_finish hroot).andThen fun _ _ hliterals => hliterals
  exact (run_cases hruns).imp_left fun ⟨parsed, _, hrun, hliterals⟩ => ⟨parsed, hrun, hliterals⟩

theorem KeepsLiterals.literals_eq {result : Except ParseError Parsed} (h : KeepsLiterals text result)
    {parsed : Parsed} (hresult : result = .ok parsed) :
    parsed.root.literals = Token.literals (Token.scan text) := by
  rcases h with ⟨other, hother, hliterals⟩ | ⟨error, herror, -⟩
  · cases hresult.symm.trans hother
    exact hliterals
  · cases hresult.symm.trans herror

theorem KeepsLiterals.noNumeral {result : Except ParseError Parsed} (h : KeepsLiterals text result)
    {error : ParseError} (hresult : result = .error error) : NoNumeral error.fault := by
  rcases h with ⟨parsed, hparsed, -⟩ | ⟨other, hother, hfault⟩
  · cases hresult.symm.trans hparsed
  · cases hresult.symm.trans hother
    exact hfault

/-- Every number that is scanned is a numeral, and its only letter is the mark of an exponent; it can be read, as
all numerals can, and what it is read as is what its text converts to. So no text is refused because of a numeral;
and the numbers of a parsed tree are those of the text, where they stand there, in their order, and each with the
number that its text converts to. -/
theorem number_literals_convert (text : String) :
    (∀ token ∈ Token.scan text, token.kind = .number →
      Decimal.IsNumeral token.text.toList ∧
      (∀ c ∈ token.text.toList, Text.isLetter c = true → c = 'e' ∨ c = 'E') ∧
      ∃ numeral, Decimal.parse? token.text.toList = some numeral ∧
        numeral.toFloat = (Value.string token.text).toNumber) ∧
    (∀ chars, Decimal.IsNumeral chars → (Decimal.parse? chars).isSome = true) ∧
    (∀ error, parseExpression text = .error error ∨ parseAssignment text = .error error →
      ∀ numeral, error.fault ≠ .badNumeral numeral) ∧
    (∀ parsed, parseExpression text = .ok parsed ∨ parseAssignment text = .ok parsed →
      parsed.root.literals =
        ((Token.scan text).filter (·.kind = .number)).map fun token =>
          ({ start := token.start, stop := token.stop }, (Value.string token.text).toNumber)) := by
  refine ⟨fun token htoken hkind => ?_, fun chars h => ?_, ?_, ?_⟩
  · have hnumeral := Token.isNumeral_of_mem_scan htoken hkind
    exact ⟨hnumeral, hnumeral.eq_mark_of_isLetter, Token.converts_of_mem_scan htoken hkind⟩
  · exact Decimal.isSome_parse?_iff.mpr ⟨[], chars, by simp, h, rfl⟩
  · rintro error (h | h)
    · exact (keepsLiterals_parseExpression text).noNumeral h
    · exact (keepsLiterals_parseAssignment text).noNumeral h
  · rintro parsed (h | h)
    · exact (keepsLiterals_parseExpression text).literals_eq h
    · exact (keepsLiterals_parseAssignment text).literals_eq h

/-- Two numbers may stand side by side: `1.e5.5` is scanned as `1.e5` and `.5`. Each of them is a numeral, and the
text is refused for what follows the first. -/
theorem number_literals_convert_points :
    (∃ token ∈ Token.scan "1.e5.5", token.text = ".5" ∧ Decimal.IsNumeral token.text.toList) ∧
    (∃ error, parseExpression "1.e5.5" = .error error ∧ ∀ numeral, error.fault ≠ .badNumeral numeral) ∧
    (∃ parsed, parseAssignment "let t = x < 1.e5 ? .5E-3 : 7." = .ok parsed ∧
      parsed.root.literals =
        [(⟨12, 16⟩, (Value.string "1.e5").toNumber), (⟨19, 24⟩, (Value.string ".5E-3").toNumber),
          (⟨27, 29⟩, (Value.string "7.").toNumber)]) := by
  refine ⟨?_, ?_, ?_⟩
  · let second : Token := { kind := .number, start := 4, stop := 6, text := ".5", value := "", fault := none }
    have hmem : second ∈ Token.scan "1.e5.5" := by decide +kernel
    exact ⟨second, hmem, rfl, ((number_literals_convert "1.e5.5").1 second hmem rfl).1⟩
  · rcases hparse : parseExpression "1.e5.5" with error | parsed
    · exact ⟨error, rfl, (number_literals_convert "1.e5.5").2.2.1 error (.inl hparse)⟩
    · have hrefused : (parseExpression "1.e5.5").toOption.isSome = false := by decide +kernel
      rw [hparse] at hrefused
      cases hrefused
  · have hnumbers : (Token.scan "let t = x < 1.e5 ? .5E-3 : 7.").filter (·.kind = .number) =
        [{ kind := .number, start := 12, stop := 16, text := "1.e5", value := "", fault := none },
          { kind := .number, start := 19, stop := 24, text := ".5E-3", value := "", fault := none },
          { kind := .number, start := 27, stop := 29, text := "7.", value := "", fault := none }] := by
      decide +kernel
    rcases hparse : parseAssignment "let t = x < 1.e5 ? .5E-3 : 7." with error | parsed
    · have hread : (parseAssignment "let t = x < 1.e5 ? .5E-3 : 7.").toOption.isSome = true := by decide +kernel
      rw [hparse] at hread
      cases hread
    · refine ⟨parsed, rfl, ?_⟩
      rw [(number_literals_convert _).2.2.2 parsed (.inr hparse), hnumbers]
      rfl

end FlowPath
