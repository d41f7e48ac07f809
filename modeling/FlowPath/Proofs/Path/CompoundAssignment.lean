import FlowPath.Proofs.Expr.Assignments
import FlowPath.Proofs.Path.Lockstep

/-!
# Compound assignments

An assignment that computes with the old value, `t += e`, does what its expansion `t = t + (e)` does. The
tokens of the two texts are made of those of `t` and `e` (`body_compoundText`, `body_expandedText`), so that
the two trees are known from those of `t` and `e` (`bare_compound_expanded`), and what an assignment does goes
by its tree (`assignParsed_eq`).
-/

namespace FlowPath

open Token (Terminal body move tokensFrom StartsFresh)

/-- An assignment that computes with the old value. -/
def compoundText (target operation value : String) : String :=
  target ++ " " ++ operation ++ "= " ++ value

/-- An assignment of what the operation makes of the old value and another one. -/
def expandedText (target operation value : String) : String :=
  target ++ " = " ++ target ++ " " ++ operation ++ " (" ++ value ++ ")"

/-- The two tokens that an operation gives: one for the assignment and one for its expansion. -/
structure Expands (operation : String) (compound kind : Token.Kind) : Prop where
  compound? : compound.compound? = some kind
  spelling : kind.spelling = operation
  spelling_compound : compound.spelling = operation ++ "="

theorem exists_expands {operation : String} (h : operation ∈ ["+", "-", "*", "/", "%"]) :
    ∃ compound kind, Expands operation compound kind := by
  simp only [List.mem_cons, List.not_mem_nil, or_false] at h
  rcases h with rfl | rfl | rfl | rfl | rfl
  · exact ⟨.plusAssign, .plus, rfl, rfl, rfl⟩
  · exact ⟨.minusAssign, .minus, rfl, rfl, rfl⟩
  · exact ⟨.starAssign, .star, rfl, rfl, rfl⟩
  · exact ⟨.slashAssign, .slash, rfl, rfl, rfl⟩
  · exact ⟨.percentAssign, .percent, rfl, rfl, rfl⟩

/-! ## Tokens -/

theorem kind_ne_unknown_tokensFrom {text : String} (h : ∀ token ∈ body text, token.kind ≠ .unknown)
    (offset : Nat) : ∀ token ∈ tokensFrom offset text.toList, token.kind ≠ .unknown := by
  rw [Token.tokensFrom_eq_map, List.forall_mem_map]
  exact h

theorem startsFresh_blank (text : List Char) : StartsFresh (' ' :: text) := by
  rintro c ⟨⟩
  rfl

/-- A text behind which there is a blank, and then a symbol that has a blank behind it. -/
theorem exists_tokensFrom_operator {text : String} (h : ∀ token ∈ body text, token.kind ≠ .unknown)
    {kind : Token.Kind} (hkind : kind ∈ Token.symbols) (offset : Nat) (rest : List Char) :
    ∃ (operator : Token) (stop : Nat), operator.kind = kind ∧
      tokensFrom offset (text.toList ++ ' ' :: (kind.spelling.toList ++ ' ' :: rest)) =
        tokensFrom offset text.toList ++ operator :: tokensFrom stop rest := by
  have hblank : ∀ c ∈ (' ' :: rest).head?, c = ' ' := by
    rintro c ⟨⟩
    rfl
  obtain ⟨operator, stop, hoperator, htokens⟩ := Token.exists_tokensFrom_symbol hkind
    (offset + Token.byteSize text.toList + ' '.utf8Size) hblank
  refine ⟨operator, stop + ' '.utf8Size, hoperator, ?_⟩
  rw [Token.tokensFrom_append (kind_ne_unknown_tokensFrom h offset) (startsFresh_blank _),
    Token.tokensFrom_blank (by decide), htokens, Token.tokensFrom_blank (by decide)]

theorem body_compoundText {target : String} (htarget : ∀ token ∈ body target, token.kind ≠ .unknown)
    {operation : String} {kind : Token.Kind} (hkind : kind ∈ Token.symbols)
    (hspelling : kind.spelling = operation ++ "=") (value : String) :
    ∃ (operator : Token) (distance : Nat), operator.kind = kind ∧
      body (compoundText target operation value) =
        body target ++ operator :: (body value).map (move distance) := by
  have htext : (compoundText target operation value).toList =
      target.toList ++ ' ' :: (kind.spelling.toList ++ ' ' :: value.toList) := by
    simp [compoundText, hspelling]
  obtain ⟨operator, stop, hoperator, htokens⟩ := exists_tokensFrom_operator htarget hkind 0 value.toList
  refine ⟨operator, stop, hoperator, ?_⟩
  rw [Token.body_eq_tokensFrom, htext, htokens, ← Token.body_eq_tokensFrom, Token.tokensFrom_eq_map]

theorem body_expandedText {target : String} (htarget : ∀ token ∈ body target, token.kind ≠ .unknown)
    {value : String} (hvalue : ∀ token ∈ body value, token.kind ≠ .unknown) {kind : Token.Kind}
    (hkind : kind ∈ Token.symbols) :
    ∃ (assign operator : Token) (opening : Terminal .openParen) (closing : Terminal .closeParen)
      (first second : Nat), assign.kind = .assign ∧ operator.kind = kind ∧
      body (expandedText target kind.spelling value) =
        body target ++ assign :: ((body target).map (move first) ++
          operator :: opening.val :: ((body value).map (move second) ++ [closing.val])) := by
  have htext : (expandedText target kind.spelling value).toList =
      target.toList ++ ' ' :: (Token.Kind.assign.spelling.toList ++ ' ' ::
        (target.toList ++ ' ' :: (kind.spelling.toList ++ ' ' :: '(' :: (value.toList ++ [')'])))) := by
    simp [expandedText, show Token.Kind.assign.spelling = "=" from rfl]
  have hfresh : StartsFresh [')'] := by
    rintro c ⟨⟩
    rfl
  obtain ⟨assign, first, hassign, hfirst⟩ := exists_tokensFrom_operator htarget
    (show Token.Kind.assign ∈ Token.symbols by decide) 0
    (target.toList ++ ' ' :: (kind.spelling.toList ++ ' ' :: '(' :: (value.toList ++ [')'])))
  obtain ⟨operator, stop, hoperator, hsecond⟩ :=
    exists_tokensFrom_operator htarget hkind first ('(' :: (value.toList ++ [')']))
  obtain ⟨opening, second, hopening, hthird⟩ := Token.exists_tokensFrom_openParen stop (value.toList ++ [')'])
  obtain ⟨closing, final, hclosing, hfourth⟩ := Token.exists_tokensFrom_symbol
    (show Token.Kind.closeParen ∈ Token.symbols by decide) (second + Token.byteSize value.toList)
    (show ∀ c ∈ ([] : List Char).head?, c = ' ' from nofun)
  have hlast : tokensFrom (second + Token.byteSize value.toList) [')'] = [closing] := hfourth
  refine ⟨assign, operator, ⟨opening, hopening⟩, ⟨closing, hclosing⟩, first, second, hassign, hoperator, ?_⟩
  rw [Token.body_eq_tokensFrom, htext, hfirst, hsecond, hthird,
    Token.tokensFrom_append (kind_ne_unknown_tokensFrom hvalue second) hfresh, hlast,
    Token.tokensFrom_eq_map first, Token.tokensFrom_eq_map second, ← Token.body_eq_tokensFrom]

/-! ## Trees -/

/-- An operand in parentheses behind an operator that has a name or an element before it. -/
theorem derives_expansion {kind : Token.Kind} (hkind : kind ∈ Token.binaryOperators) {operator : Token}
    (hoperator : operator.kind = kind) {target value : List Token} {place tree : Expr Unit}
    (hplace : place.isAccess = true) (htarget : Derives .expression target place)
    (hvalue : Derives .expression value tree) (opening : Terminal .openParen) (closing : Terminal .closeParen) :
    Derives .expression (target ++ operator :: opening.val :: (value ++ [closing.val]))
      (.binary () kind place tree) := by
  have hloose : ∀ kind ∈ Token.binaryOperators, kind.grouping.left.precedence ≤ Category.access.precedence ∧
      kind.grouping.right.precedence ≤ Category.primary.precedence ∧ kind.grouping.whole ≠ .elements := by
    decide
  obtain ⟨hleft, hright, hwhole⟩ := hloose kind hkind
  obtain ⟨phrase, rfl, rfl⟩ := htarget
  obtain ⟨inner, rfl, rfl⟩ := hvalue
  obtain ⟨access, haccess, haccessTree⟩ := phrase.exists_access hplace
  obtain ⟨left, hleftTokens, hleftTree, -⟩ := access.exists_looser kind.grouping.left (by decide) hleft
  obtain ⟨right, hrightTokens, hrightTree, -⟩ :=
    (Phrase.parenthesized opening inner closing).exists_looser kind.grouping.right (by decide) hright
  obtain ⟨whole, hwholeTokens, hwholeTree, -⟩ := Phrase.exists_binary hkind ⟨operator, hoperator⟩ left right
  obtain ⟨expression, htokens, htree, -⟩ := whole.exists_looser .expression hwhole (Nat.zero_le _)
  refine ⟨expression, ?_, ?_⟩
  · rw [htokens, hwholeTokens, hleftTokens, haccess, hrightTokens]
    rfl
  · rw [htree, hwholeTree, hleftTree, haccessTree, hrightTree]
    rfl

/-- What is known of an operator that computes with the old value. -/
theorem of_compound? {operator kind : Token.Kind} (h : operator.compound? = some kind) :
    (operator ∈ Token.symbols ∧ operator.isAssignment = true) ∧
      kind ∈ Token.symbols ∧ kind ∈ Token.binaryOperators ∧ kind ≠ .andAnd ∧ kind ≠ .orOr := by
  cases operator <;> cases h <;> decide

/-- If a compound assignment and its expansion are parsed, both trees are made of the trees of the target and
of the value. -/
theorem bare_compound_expanded {operation : String} {operator kind : Token.Kind}
    (h : Expands operation operator kind) {target value : String} {place compound expanded : Parsed}
    (htarget : parseExpression target = .ok place) (hplace : place.root.bare.isAccess = true)
    (hcompound : parseAssignment (compoundText target operation value) = .ok compound)
    (hexpanded : parseAssignment (expandedText target operation value) = .ok expanded) :
    ∃ tree, compound.root.bare = .assign () operator place.root.bare tree ∧
      expanded.root.bare = .assign () .assign place.root.bare (.binary () kind place.root.bare tree) := by
  obtain ⟨hoperator, rfl, hspelling⟩ := h
  obtain ⟨⟨hsymbol, hassignment⟩, hkind, hbinary, -⟩ := of_compound? hoperator
  obtain ⟨-, hsentence⟩ := isSentence_of_parseExpression htarget
  have hfirst := isSentence_of_parseAssignment hcompound
  have hsecond := isSentence_of_parseAssignment hexpanded
  have houter : ∀ tokens, Declares tokens compound.declaration compound.root.bare →
      ∀ token ∈ tokens, token.kind.isOuter = false := fun _ => Declares.isOuter_eq_false
  have hknown := hsentence.kind_ne_unknown fun _ => Derives.isOuter_eq_false
  obtain ⟨assign, distance, rfl, hbody⟩ := body_compoundText hknown hsymbol hspelling value
  have hknown' : ∀ token ∈ body value, token.kind ≠ .unknown := by
    have hall := hfirst.kind_ne_unknown houter
    rw [hbody, List.forall_mem_append, List.forall_mem_cons, List.forall_mem_map] at hall
    exact hall.2.2
  obtain ⟨plain, operator, opening, closing, first, second, hplain, hoperator, hbody'⟩ :=
    body_expandedText hknown hknown' hkind
  -- With a semicolon behind it, the target would end the sentence before the operator.
  obtain ⟨tokens, hderives, rfl | ⟨semicolon, hsemicolon⟩⟩ := hsentence
  swap
  · rw [hsemicolon, List.append_assoc, List.singleton_append] at hbody
    cases hfirst.eq_nil_of_semicolon houter semicolon.property hbody
  have hinner : ∀ token ∈ body target, token.kind.isInner = true := by
    obtain ⟨phrase, hphrase, -⟩ := hderives
    exact hphrase ▸ phrase.isInner_tokens
  obtain ⟨found, tree, tokens, hfound, htree, hroot, hback⟩ :=
    exists_assign_of_parseAssignment hcompound hbody hinner hassignment
  obtain rfl := bare_eq_of_derives htarget hfound
  -- A semicolon behind the value would stand before the closing parenthesis.
  rcases hback with rfl | ⟨semicolon, hsemicolon⟩
  swap
  · obtain ⟨front, last, hvalue, -, hlast⟩ := List.map_eq_append_iff.mp hsemicolon
    obtain ⟨token, rfl, htoken⟩ := List.map_eq_singleton_iff.mp hlast
    have hkind' : (move second token).kind = .semicolon := by
      rw [← semicolon.property, ← htoken]
      rfl
    have hinside : body (expandedText target kind.spelling value) =
        (body target ++ plain :: ((body target).map (move first) ++ operator :: opening.val ::
          front.map (move second))) ++ move second token :: [closing.val] := by
      rw [hbody', hvalue]
      simp
    cases hsecond.eq_nil_of_semicolon (fun _ => Declares.isOuter_eq_false) hkind' hinside
  refine ⟨tree, hroot, ?_⟩
  have hsum : Derives .expression _ (.binary () kind place.root.bare tree) :=
    derives_expansion hbinary hoperator hplace ((derives_move_iff first).mpr hderives)
      ((derives_move_iff second).mpr ((derives_move_iff distance).mp htree)) opening closing
  have hassigns : Assigns (body target ++ plain :: _) (.assign () plain.kind place.root.bare _) :=
    .assignment hderives (hplain ▸ by decide) hsum
  have hsentence' : IsSentence (expandedText target kind.spelling value) (Declares · none _) :=
    ⟨_, .plain hassigns, .inl hbody'⟩
  rcases parseAssignment_of_declares hsentence' with ⟨parsed, hparsed, -, hbare⟩ | ⟨error, herror, -⟩
  · cases hexpanded.symm.trans hparsed
    rw [hbare, hplain]
  · cases hexpanded.symm.trans herror

/-! ## Effects -/

theorem Expr.eval_bare {α : Type} (e : Expr α) (bindings : Bindings) :
    e.bare.eval bindings = e.eval bindings := by
  have hall {elements : List (Expr α)} (h : ∀ e ∈ elements, e.bare.eval bindings = e.eval bindings) :
      Expr.evalAll bindings (Expr.bareAll elements) = Expr.evalAll bindings elements := by
    induction elements with
    | nil => rfl
    | cons e rest ih =>
      obtain ⟨hfirst, hrest⟩ := List.forall_mem_cons.mp h
      rw [Expr.bareAll, Expr.evalAll, Expr.evalAll, hfirst, ih hrest]
  induction e using Expr.induction with
  | node e ih =>
    cases e with
    | array note elements =>
      rw [Expr.bare, Expr.eval, Expr.eval]
      exact congrArg Value.array (hall ih)
    | _ => simp_all [Expr.bare, Expr.eval, Expr.children]

/-- A name, or an element of what a name stands for. -/
def Expr.isAssignable {α : Type} : Expr α → Bool
  | .identifier _ _ => true
  | .element _ (.identifier _ _) _ => true
  | _ => false

theorem Expr.isAssignable_bare {α : Type} (e : Expr α) : e.bare.isAssignable = e.isAssignable := by
  cases e with
  | element note object index => cases object <;> rfl
  | _ => rfl

theorem Expr.isAccess_of_isAssignable {e : Expr Unit} (h : e.isAssignable = true) : e.isAccess = true := by
  cases e with
  | identifier | element => rfl
  | _ => cases h

namespace Path

/-- The value that is assigned. -/
def assigned (operator : Token.Kind) (target value : Expr Unit) (bindings : Bindings) : Value :=
  match operator.compound? with
  | some kind => Value.applyBinary kind (target.eval bindings) (value.eval bindings)
  | none => value.eval bindings

/-- Gives a value to the target. -/
def assignTo (text : String) (scope : Nat) (env : Environment) (target : Expr Unit) (value : Value) :
    Except WalkError Environment :=
  match target with
  | .identifier _ name => .ok (env.write scope name value)
  | .element _ (.identifier _ name) index =>
    (env.writeElement scope name (index.eval (env.view scope)) value).mapError .element
  | _ => .error (.notAssignable text)

/-- What an assignment does goes by its tree. -/
theorem assignParsed_eq (text : String) {parsed : Parsed} {operator : Token.Kind} {target value : Expr Unit}
    (h : parsed.root.bare = .assign () operator target value) (scope : Nat) (env : Environment) :
    Session.assignParsed text parsed scope env =
      assignTo text scope env target (assigned operator target value (env.view scope)) := by
  unfold Session.assignParsed
  cases hroot : parsed.root with
  | assign note operator' target' value' =>
    rw [hroot, Expr.bare] at h
    obtain ⟨-, rfl, rfl, rfl⟩ := Expr.assign.inj h
    simp only [assigned, Expr.eval_bare]
    cases target' with
    | element note object index =>
      cases object with
      | identifier => cases operator'.compound? <;> simp only [Expr.bare, assignTo, Expr.eval_bare]
      | _ => rfl
    | _ => rfl
  | _ =>
    rw [hroot, Expr.bare] at h
    cases h

/-- The text of an assignment does not matter where the target is a name or an element of one. -/
theorem assignTo_text {target : Expr Unit} (h : target.isAssignable = true) (text text' : String) (scope : Nat)
    (env : Environment) (value : Value) :
    assignTo text scope env target value = assignTo text' scope env target value := by
  unfold Expr.isAssignable at h
  split at h
  · rfl
  · rfl
  · cases h

theorem assigned_expanded {operator kind : Token.Kind} (h : operator.compound? = some kind)
    (target value : Expr Unit) (bindings : Bindings) :
    assigned .assign target (.binary () kind target value) bindings =
      assigned operator target value bindings := by
  obtain ⟨-, -, -, hand, hor⟩ := of_compound? h
  have hplain : Token.Kind.assign.compound? = none := rfl
  simp only [assigned, h, hplain, Expr.eval, hand, hor, false_and, if_false]

theorem exists_parsed {result : Except ParseError Parsed} (h : result.isOk = true) :
    ∃ parsed, result = .ok parsed := by
  cases result with
  | error => cases h
  | ok parsed => exact ⟨parsed, rfl⟩

/-- With a memory that gives the right answers, an assignment does what its text says. -/
theorem assign_remembered {session : Session ParsedTexts} (h : Faithful session.memory) {text : String}
    {parsed : Parsed} (hparsed : parseAssignment text = .ok parsed) (scope : Nat) :
    ∃ memory, session.assign Texts.remembered text scope =
      match Session.assignParsed text parsed scope session.environment with
      | .error e => (.error e, { session with memory })
      | .ok environment => (.ok (), { session with memory, environment }) := by
  have hresult : (Texts.remembered.assignment text session.memory).1 = .ok parsed :=
    (remembered_agree_fresh.assignment (n := ()) h text).1.trans hparsed
  rcases hassignment : Texts.remembered.assignment text session.memory with ⟨result, memory⟩
  rw [hassignment] at hresult
  subst hresult
  refine ⟨memory, ?_⟩
  cases heffect : Session.assignParsed text parsed scope session.environment <;>
    simp only [Session.assign, hassignment, heffect]

/-- A compound assignment does what its expansion does. From any session whose memory of parsed texts gives the
right answers, `t += e` and `t = t + (e)`, where both are accepted and `t` is a name or an element of one, end
with the same error or none, and in the same session but for the memory. -/
theorem walk_compound (options : WalkOptions) (scope : Nat) (address : Address) {node : Statement}
    (hnode : node.kind = .assignment) {session : Session ParsedTexts} (hmemory : Faithful session.memory)
    {operation : String} (hoperation : operation ∈ ["+", "-", "*", "/", "%"]) {target value : String}
    {place : Parsed} (htarget : parseExpression target = .ok place) (hplace : place.root.isAssignable = true)
    (hcompound : (parseAssignment (compoundText target operation value)).isOk = true)
    (hexpanded : (parseAssignment (expandedText target operation value)).isOk = true) :
    let outcome text := walk Texts.remembered options scope address { node with text } session
    let compound := outcome (compoundText target operation value)
    let expanded := outcome (expandedText target operation value)
    compound.error = expanded.error ∧ compound.session.withMemory () = expanded.session.withMemory () := by
  obtain ⟨operator, kind, hexpands⟩ := exists_expands hoperation
  obtain ⟨compound, hparsed⟩ := exists_parsed hcompound
  obtain ⟨expanded, hparsed'⟩ := exists_parsed hexpanded
  have hbare : place.root.bare.isAssignable = true := (Expr.isAssignable_bare _).trans hplace
  obtain ⟨tree, hroot, hroot'⟩ :=
    bare_compound_expanded hexpands htarget (Expr.isAccess_of_isAssignable hbare) hparsed hparsed'
  have heffect (env : Environment) :
      Session.assignParsed (compoundText target operation value) compound scope env =
        Session.assignParsed (expandedText target operation value) expanded scope env := by
    rw [assignParsed_eq _ hroot, assignParsed_eq _ hroot', assigned_expanded hexpands.compound?,
      assignTo_text hbare _ (expandedText target operation value)]
  intro outcome
  dsimp only [outcome]
  by_cases hdepth : options.maxDepth ≤ session.depth
  · rw [walk_tooDeep hdepth, walk_tooDeep hdepth]
    exact ⟨rfl, rfl⟩
  · let inside : Session ParsedTexts := { session with depth := session.depth + 1 }
    have hinside : Faithful inside.memory := hmemory
    obtain ⟨memory, hassign⟩ := assign_remembered hinside hparsed scope
    obtain ⟨memory', hassign'⟩ := assign_remembered hinside hparsed' scope
    rw [walk_eq hdepth, walk_eq hdepth]
    simp only [runInside, hnode]
    rw [hassign, hassign', heffect]
    cases Session.assignParsed (expandedText target operation value) expanded scope inside.environment <;>
      exact ⟨rfl, rfl⟩

/-- The element of a list is found, changed and written back. -/
theorem walk_compound_element :
    let environment := ((({} : Environment).write 0 "a" (.array [.string "x", .undefined])).write 0 "i"
      (.number (Binary64.ofInt 0))).write 0 "b" (.boolean true)
    let session : Session ParsedTexts := { Session.start {} [] {} with environment }
    let outcome text := walk Texts.remembered {} 0 [] (.assignment text) session
    let compound := outcome "a[i] += b ? 'c' : d"
    let expanded := outcome "a[i] = a[i] + (b ? 'c' : d)"
    compound.error = none ∧ (compound.session.environment.view 0 "a").map Value.display = some "xc," ∧
      compound.error = expanded.error ∧ compound.session.withMemory () = expanded.session.withMemory () := by
  intro environment session outcome
  obtain ⟨place, htarget, hplace⟩ :
      ∃ place, parseExpression "a[i]" = .ok place ∧ place.root.isAssignable = true := ⟨_, rfl, rfl⟩
  have hmemory : Faithful session.memory := faithful_empty
  have hcompound : (parseAssignment (compoundText "a[i]" "+" "b ? 'c' : d")).isOk = true := by decide +kernel
  have hexpanded : (parseAssignment (expandedText "a[i]" "+" "b ? 'c' : d")).isOk = true := by decide +kernel
  have hnode : (Statement.assignment "").kind = .assignment := rfl
  have h := walk_compound {} 0 [] hnode hmemory (by decide) htarget hplace hcompound hexpanded
  rw [show compoundText "a[i]" "+" "b ? 'c' : d" = "a[i] += b ? 'c' : d" by decide,
    show expandedText "a[i]" "+" "b ? 'c' : d" = "a[i] = a[i] + (b ? 'c' : d)" by decide] at h
  -- Without a memory the walk can be evaluated.
  have hfresh := (walk_fresh {} 0 [] (.assignment "a[i] += b ? 'c' : d") session hmemory).2
  have herror : (outcome "a[i] += b ? 'c' : d").error = none :=
    (congrArg Outcome.error hfresh).symm.trans (by decide +kernel)
  have hvalue : ((outcome "a[i] += b ? 'c' : d").session.environment.view 0 "a").map Value.display = some "xc," :=
    (congrArg (fun out => (out.session.environment.view 0 "a").map Value.display) hfresh).symm.trans
      (by decide +kernel)
  exact ⟨herror, hvalue, h⟩

end Path

end FlowPath
