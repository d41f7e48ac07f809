import FlowPath.Expr.TableParser
import FlowPath.Proofs.Expr.Postorder
import FlowPath.Proofs.Expr.Runs
import FlowPath.Proofs.Token.Tiling

/-!
# Parsing into a table and parsing into a tree

A parser that adds rows to a table ends as the parser that makes trees does: with the same fault at the same token,
or with the table in which the tree is laid out (`parseExpressionTable_eq`, `parseAssignmentTable_eq`). Rows are
added in the order of `Expr.addTo`, since a node is complete only after the nodes below it are. The heights that the
table computes are those that the nodes note, and where the text before a token ends, its blanks aside, is where the
token before it ends.
-/

namespace FlowPath

open Parsing (Parser Cursor Runs anyFault runs_bind runs_peek runs_advance runs_tokensLeft
  runs_anyFault_expect)
open Token (Tiles byteSize byteSize_append)
open Text (isBlank)

/-! ## Cursors -/

/-- What has been taken of the text does not end with a blank, and the tokens that are left cover what is left. -/
def Parsing.Cursor.Reads (text : String) (cursor : Cursor) : Prop :=
  ∃ front rest, text = String.ofList (front ++ rest) ∧ cursor.taken = byteSize front ∧
    (∀ c ∈ front.getLast?, isBlank c = false) ∧ Tiles cursor.taken rest cursor.rest

theorem Text.trimRight_append {front gap : List Char} (hfront : ∀ c ∈ front.getLast?, isBlank c = false)
    (hgap : ∀ c ∈ gap, isBlank c = true) : trimRight (front ++ gap) = front := by
  have hhead : front.reverse.dropWhile isBlank = front.reverse := by
    rw [List.getLast?_eq_head?_reverse] at hfront
    cases hreverse : front.reverse with
    | nil => rfl
    | cons c rest => exact List.dropWhile_cons_of_neg (Bool.eq_false_iff.mp (hfront c (by rw [hreverse]; rfl)))
  have hblank : ∀ c ∈ gap.reverse, isBlank c = true := fun c hc => hgap c (List.mem_reverse.mp hc)
  rw [trimRight, List.reverse_append, List.dropWhile_append_of_pos hblank, hhead, List.reverse_reverse]

theorem Parsing.reads_scan (text : String) : Cursor.Reads text { rest := Token.scan text } :=
  ⟨[], text.toList, String.ofList_toList.symm, rfl, nofun, Token.tiles_scan text⟩

namespace Parsing.Cursor.Reads

variable {text : String} {cursor : Cursor}

/-- Only blanks lie between the last token taken and the next one. -/
theorem endBefore_eq (h : cursor.Reads text) : TableParsing.endBefore text cursor.token.start = cursor.taken := by
  obtain ⟨front, rest, rfl, htaken, hfront, htiles⟩ := h
  obtain ⟨gap, after, token, others, rfl, hrest, hblank, hstart⟩ := htiles.exists_gap
  have htoken : cursor.token = token := by rw [Cursor.token, hrest, List.head?_cons, Option.getD_some]
  have hslice := Token.slice_append [] (front ++ gap) after
  rw [List.nil_append, List.append_assoc, Token.byteSize_nil, Nat.zero_add, byteSize_append, ← htaken, ← hstart]
    at hslice
  have hbefore : (String.Pos.Raw.extract (String.ofList (front ++ (gap ++ after))) 0 ⟨token.start⟩).toList =
      front ++ gap := (congrArg String.toList hslice).trans String.toList_ofList
  rw [htoken, TableParsing.endBefore, hbefore, Text.trimRight_append hfront hblank, htaken]

/-- A token of a known kind is taken. -/
theorem next (h : cursor.Reads text) {kind : Token.Kind} (htoken : cursor.token.kind = kind)
    (hend : kind ≠ .endOfText) (hknown : kind ≠ .unknown) : cursor.next.Reads text := by
  obtain ⟨tokens, taken⟩ := cursor
  obtain ⟨front, rest, rfl, htaken, -, htiles⟩ := h
  change Tiles taken rest tokens at htiles
  cases htiles with
  | last => exact absurd htoken.symm hend
  | @next _ gap after token tokens _ hfirst hlast hstart hstop hafter =>
    refine ⟨front ++ gap ++ token.text.toList, after, ?_, ?_, ?_, hafter⟩
    · simp only [List.append_assoc]
    · rw [byteSize_append, byteSize_append, ← htaken, ← hstart]
      exact hstop
    · obtain ⟨c, cs, htext, -⟩ := hfirst
      rw [htext, List.getLast?_append_of_ne_nil _ (List.cons_ne_nil c cs), ← htext]
      exact hlast (htoken ▸ hknown)

/-- A token is taken that a test tells from the end of the text and from unknown characters. -/
theorem next_of_ne (h : cursor.Reads text) {β : Type} (test : Token.Kind → β)
    (hend : test cursor.token.kind ≠ test .endOfText) (hknown : test cursor.token.kind ≠ test .unknown) :
    cursor.next.Reads text :=
  h.next rfl (fun hkind => hend (congrArg test hkind)) fun hkind => hknown (congrArg test hkind)

end Parsing.Cursor.Reads

/-! ## Rows that are added -/

/-- The trees are laid out after the rows of the first table, which makes the larger one. They have no missing parts,
and the heights that they note are right. -/
structure Table.Adds (table : Table) (trees : List (Expr Place)) (rows : List Nat) (larger : Table) : Prop where
  added : Expr.addAllTo trees table = (larger, rows)
  full : ∀ e ∈ trees, e.full = true
  measured : ∀ e ∈ trees, e.Measured

/-- The table lists some trees in post-order. -/
def Table.IsForest (table : Table) : Prop := ∃ trees roots, table.Lists trees roots

theorem Expr.addAllTo_append (trees others : List (Expr Place)) (table : Table) :
    addAllTo (trees ++ others) table =
      ((addAllTo others (addAllTo trees table).1).1,
        (addAllTo trees table).2 ++ (addAllTo others (addAllTo trees table).1).2) := by
  induction trees generalizing table with
  | nil => rfl
  | cons e trees ih => simp only [List.cons_append, addAllTo, ih]

namespace Table.Adds

variable {table larger largest : Table} {trees others : List (Expr Place)} {rows otherRows : List Nat}

theorem nil : table.Adds [] [] table := ⟨rfl, List.forall_mem_nil _, List.forall_mem_nil _⟩

theorem append (h : table.Adds trees rows larger) (hothers : larger.Adds others otherRows largest) :
    table.Adds (trees ++ others) (rows ++ otherRows) largest := by
  refine ⟨?_, List.forall_mem_append.mpr ⟨h.full, hothers.full⟩,
    List.forall_mem_append.mpr ⟨h.measured, hothers.measured⟩⟩
  rw [Expr.addAllTo_append, h.added, hothers.added]

theorem lists (h : table.Adds trees rows larger) {done : List (Expr Place)} {before : List Nat}
    (htable : table.Lists done before) : larger.Lists (done ++ trees) (before ++ rows) := by
  have hlists := Expr.lists_addAllTo (fun e hmem => Expr.addsTo (h.full e hmem)) htable
  rwa [h.added] at hlists

theorem isForest (h : table.Adds trees rows larger) (htable : table.IsForest) : larger.IsForest :=
  have ⟨_, _, hlists⟩ := htable
  ⟨_, _, h.lists hlists⟩

/-- The rows stand for the trees. -/
theorem stand (h : table.Adds trees rows larger) (htable : table.IsForest) : List.Forall₂ larger.Has rows trees := by
  obtain ⟨done, before, hlists⟩ := htable
  have hstand := List.forall₂_drop_append _ _ _ (h.lists hlists).stand
  rwa [← hlists.stand.length_eq, List.drop_left] at hstand

theorem has {e : Expr Place} {row : Nat} (h : table.Adds (e :: trees) (row :: rows) larger)
    (htable : table.IsForest) : larger.Has row e :=
  (List.forall₂_cons.mp (h.stand htable)).1

/-- A row over the trees makes them one tree. -/
theorem node {node : Expr Place} {entry : Entry} (h : table.Adds node.children rows larger)
    (hentry : node.asEntry rows = some entry)
    (hheight : node.note.height = 1 + Expr.highest (node.children.map fun child => child.note.height)) :
    table.Adds [node] [larger.size] (larger.push entry node.note.span) := by
  refine ⟨?_, List.forall_mem_singleton.mpr (Expr.full_of_asEntry hentry h.full), List.forall_mem_singleton.mpr ?_⟩
  · have hrows : node.asEntry (Expr.addAllTo node.children table).2 = some entry := by rw [h.added, hentry]
    rw [Expr.addAllTo, Expr.addTo_of_asEntry hrows, h.added]
    rfl
  · rw [Expr.Measured, hheight, Expr.highest_eq_heightAll h.measured, Expr.height_eq, Expr.children_bare]

end Table.Adds

theorem isForest_empty : Table.IsForest {} := ⟨[], [], Table.lists_empty⟩

/-- The parsed text with its tree laid out in a table. -/
def Parsed.laidOut (parsed : Parsed) : ParsedTable :=
  { declaration := parsed.declaration, table := parsed.root.table.1, root := parsed.root.table.2 }

/-! ## Parsers that end alike -/

namespace TableParsing

variable {α β γ δ : Type} {cursor : Cursor} {table : Table}

/-- The two parsers end with the same fault, or with results that satisfy `Q` and at the same cursor. -/
def Agree (parser : Parser α) (tabled : TableParser β) (cursor : Cursor) (table : Table)
    (Q : α → β → Table → Cursor → Prop) : Prop :=
  match parser cursor with
  | .ok (value, after) =>
    ∃ result larger, tabled table cursor = .ok ((result, larger), after) ∧ Q value result larger after
  | .error failure => tabled table cursor = .error failure

section

variable {P : α → β → Table → Cursor → Prop} {Q : γ → δ → Table → Cursor → Prop}

theorem Agree.andThen {parser : Parser α} {tabled : TableParser β} {next : α → Parser γ} {next' : β → TableParser δ}
    (h : Agree parser tabled cursor table P)
    (hnext : ∀ value result larger after, P value result larger after →
      Agree (next value) (next' result) after larger Q) :
    Agree (parser >>= next) (tabled >>= next') cursor table Q := by
  simp only [Agree, bind, StateT.bind] at h ⊢
  rcases hparser : parser cursor with failure | ⟨value, after⟩
  · rw [hparser] at h
    rw [h]
    rfl
  · rw [hparser] at h
    obtain ⟨result, larger, htabled, hP⟩ := h
    rw [htabled]
    exact hnext value result larger after hP

theorem Agree.map {parser : Parser α} {tabled : TableParser β} {f : α → γ} {Q : γ → β → Table → Cursor → Prop}
    (h : Agree parser tabled cursor table fun value => Q (f value)) :
    Agree (do return f (← parser)) tabled cursor table Q := by
  simp only [Agree, bind, StateT.bind] at h ⊢
  rcases hparser : parser cursor with failure | ⟨value, after⟩
  · rw [hparser] at h
    exact h
  · rw [hparser] at h
    exact h

theorem agree_pure {value : γ} {result : δ} (h : Q value result table cursor) :
    Agree (pure value) (pure result) cursor table Q :=
  ⟨result, table, rfl, h⟩

theorem agree_fail (fault : ParseFault) : Agree (Parsing.fail fault) (liftM (Parsing.fail fault)) cursor table Q := rfl

/-- Both do what a parser does that adds no rows. -/
theorem agree_lift {parser : Parser α} {next : α → Parser γ} {next' : α → TableParser δ} :
    Agree (parser >>= next) (liftM parser >>= next') cursor table Q ↔
      Runs anyFault parser cursor fun value after => Agree (next value) (next' value) after table Q := by
  have hbind : (parser >>= next) cursor = (parser cursor).bind fun (value, after) => next value after := rfl
  have hlift : (liftM parser >>= next') table cursor =
      (parser cursor).bind fun (value, after) => next' value table after := by
    simp only [liftM, monadLift, MonadLift.monadLift, StateT.lift, bind, StateT.bind]
    rcases parser cursor with failure | ⟨value, after⟩ <;> rfl
  rw [Agree, hbind, hlift, Runs]
  rcases parser cursor with failure | ⟨value, after⟩
  · exact iff_true_intro rfl
  · rfl

end

/-- The start of a row is the start that its node notes. -/
theorem agree_startOf {row : Nat} {e : Expr Place} {parser : Parser α} {next : Nat → TableParser β}
    {Q : α → β → Table → Cursor → Prop} (hrow : table.Has row e)
    (h : Agree parser (next e.note.span.start) cursor table Q) :
    Agree parser (startOf row >>= next) cursor table Q := by
  rw [← hrow.span_eq] at h
  exact h

theorem add_apply (entry : Entry) (start stop : Nat) (table : Table) (cursor : Cursor) :
    add entry start stop table cursor =
      if Expr.mostLevels < 1 + Expr.highest (entry.children.map table.height) then
        .error (cursor.token.start, .tooDeep)
      else .ok ((table.size, table.push entry { start, stop }), cursor) := by
  rw [← @Table.height_push_size table entry { start, stop }]
  change (if _ then _ else _ : TableParser Nat) _ cursor = _
  split <;> rfl

/-- The tree is laid out after the rows of the first table, which makes the larger one. -/
structure Made (text : String) (table : Table) (e : Expr Place) (row : Nat) (larger : Table) (after : Cursor) :
    Prop where
  adds : table.Adds [e] [row] larger
  reads : after.Reads text

variable {text : String} {larger : Table}

section Nodes

variable {children : List (Expr Place)} {rows : List Nat} {entry : Entry} (htable : table.IsForest)
  (hadds : table.Adds children rows larger) (hreads : cursor.Reads text) (node : Place → Expr Place)
  (hnote : ∀ place, (node place).note = place) (hchildren : ∀ place, (node place).children = children)
  (hentry : ∀ place, (node place).asEntry rows = some entry)

include htable hadds hreads hnote hchildren hentry

/-- A row is added for a node over the trees whose rows were added last. -/
theorem agree_add (start stop : Nat) :
    Agree (Parsing.place start stop children) (add entry start stop) cursor larger fun place =>
      Made text table (node place) := by
  have hheights : entry.children.map larger.height = children.map fun child => child.note.height := by
    rw [Expr.children_of_asEntry (hentry ⟨{}, 0⟩),
      Table.map_eq_of_forall₂ (hadds.stand htable) fun _ _ hhas => hhas.height_eq]
    exact List.map_congr_left fun child hmem => (hadds.measured child hmem).symm
  rw [Parsing.place, Agree, add_apply, hheights]
  by_cases hheight : Expr.mostLevels < 1 + Expr.highest (children.map fun child => child.note.height)
  · rw [if_pos hheight, if_pos hheight]
    rfl
  · rw [if_neg hheight, if_neg hheight]
    refine ⟨_, _, rfl, ?_, hreads⟩
    generalize hplace :
      (⟨⟨start, stop⟩, 1 + Expr.highest (children.map fun child => child.note.height)⟩ : Place) = place
    have hspan : (node place).note.span = ⟨start, stop⟩ := by rw [hnote, ← hplace]
    have hnode : table.Adds (node place).children rows larger := by rwa [hchildren]
    rw [← hspan]
    exact hnode.node (hentry place) (by rw [hnote, hchildren, ← hplace])

/-- The node ends with the last token taken. -/
theorem agree_addFrom (start : Nat) :
    Agree (Parsing.placeFrom start children) (addFrom text entry start) cursor larger fun place =>
      Made text table (node place) := by
  have hstop : addFrom text entry start larger cursor = add entry start cursor.taken larger cursor :=
    congrArg (fun stop => add entry start stop larger cursor) hreads.endBefore_eq
  rw [Agree, hstop]
  exact agree_add htable hadds hreads node hnote hchildren hentry start cursor.taken

end Nodes

/-- What the one parser makes trees of, the other lays out. -/
def Tabulates (text : String) (parser : Parser (Expr Place)) (tabled : TableParser Nat) : Prop :=
  ∀ cursor table, cursor.Reads text → table.IsForest → Agree parser tabled cursor table (Made text table)

variable {expr : Parser (Expr Place)} {tabled : TableParser Nat}

/-! ## Primaries -/

theorem agree_elements (hexpr : Tabulates text expr tabled) (htable : table.IsForest) (fuel : Nat)
    {done : List (Expr Place)} {rows : List Nat} {larger : Table} {cursor : Cursor}
    (hdone : table.Adds done.reverse rows.reverse larger) (hreads : cursor.Reads text) :
    Agree (Parsing.elements expr fuel done) (elements tabled fuel rows) cursor larger
      fun items rows largest after => table.Adds items rows largest ∧ after.Reads text := by
  induction fuel generalizing done rows larger cursor with
  | zero => exact agree_pure ⟨hdone, hreads⟩
  | succ fuel ih =>
    rw [Parsing.elements, elements, agree_lift, runs_peek]
    split
    · exact agree_pure ⟨hdone, hreads⟩
    refine (hexpr _ _ hreads (hdone.isForest htable)).andThen ?_
    intro e row largest after he
    have hmore : table.Adds (e :: done).reverse (row :: rows).reverse largest := by
      rw [List.reverse_cons, List.reverse_cons]
      exact hdone.append he.adds
    rw [agree_lift, runs_peek]
    split
    case isTrue hcomma =>
      rw [agree_lift, runs_advance]
      exact ih hmore (he.reads.next hcomma (by decide) (by decide))
    case isFalse => exact agree_pure ⟨hmore, he.reads⟩

/-- A primary that is a single token. -/
theorem agree_leaf (hreads : cursor.Reads text) (htable : table.IsForest) {kind : Token.Kind}
    (htoken : cursor.token.kind = kind) (hend : kind ≠ .endOfText) (hknown : kind ≠ .unknown) {entry : Entry}
    (node : Place → Expr Place) (hnote : ∀ place, (node place).note = place)
    (hchildren : ∀ place, (node place).children = []) (hentry : ∀ place, (node place).asEntry [] = some entry) :
    Agree (do Parsing.advance; return node (← Parsing.place cursor.token.start cursor.token.stop []))
      (do Parsing.advance; add entry cursor.token.start cursor.token.stop) cursor table (Made text table) := by
  rw [agree_lift, runs_advance]
  exact (agree_add htable .nil (hreads.next htoken hend hknown) node hnote hchildren hentry _ _).map

theorem tabulates_primary (hexpr : Tabulates text expr tabled) :
    Tabulates text (Parsing.primary expr) (primary text tabled) := by
  intro cursor table hreads htable
  rw [Parsing.primary, primary, agree_lift, runs_peek]
  cases hkind : cursor.token.kind with
  | number =>
    dsimp only
    cases Decimal.parse? cursor.token.text.toList with
    | none => exact agree_fail _
    | some numeral =>
      exact agree_leaf hreads htable hkind (by decide) (by decide) (.number · numeral.toFloat) (fun _ => rfl)
        (fun _ => rfl) fun _ => rfl
  | string =>
    exact agree_leaf hreads htable hkind (by decide) (by decide) (.string · cursor.token.value) (fun _ => rfl)
      (fun _ => rfl) fun _ => rfl
  | trueWord =>
    exact agree_leaf hreads htable hkind (by decide) (by decide) (.boolean · true) (fun _ => rfl) (fun _ => rfl)
      fun _ => rfl
  | falseWord =>
    exact agree_leaf hreads htable hkind (by decide) (by decide) (.boolean · false) (fun _ => rfl) (fun _ => rfl)
      fun _ => rfl
  | identifier =>
    exact agree_leaf hreads htable hkind (by decide) (by decide) (.identifier · cursor.token.text) (fun _ => rfl)
      (fun _ => rfl) fun _ => rfl
  | openParen =>
    dsimp only
    rw [agree_lift, runs_advance]
    refine (hexpr _ _ (hreads.next hkind (by decide) (by decide)) htable).andThen ?_
    intro e row larger after he
    rw [agree_lift]
    exact runs_anyFault_expect fun hclosing =>
      agree_pure ⟨he.adds, he.reads.next hclosing (by decide) (by decide)⟩
  | openBracket =>
    dsimp only
    rw [agree_lift, runs_advance, agree_lift, runs_tokensLeft]
    refine (agree_elements hexpr htable _ .nil (hreads.next hkind (by decide) (by decide))).andThen ?_
    rintro items rows larger after ⟨hitems, hafter⟩
    rw [agree_lift]
    refine runs_anyFault_expect fun hclosing => ?_
    exact (agree_addFrom htable hitems (hafter.next hclosing (by decide) (by decide)) (.array · items)
      (fun _ => rfl) (fun _ => rfl) (fun _ => rfl) _).map
  | _ => exact agree_fail _

/-! ## Postfixes and operators -/

theorem agree_postfixes (hexpr : Tabulates text expr tabled) (htable : table.IsForest) (fuel : Nat)
    {object : Expr Place} {row : Nat} {larger : Table} {cursor : Cursor}
    (hobject : Made text table object row larger cursor) :
    Agree (Parsing.postfixes expr fuel object) (postfixes text tabled fuel row) cursor larger (Made text table) := by
  induction fuel generalizing object row larger cursor with
  | zero => exact agree_pure hobject
  | succ fuel ih =>
    have hlarger := hobject.adds.isForest htable
    rw [Parsing.postfixes, postfixes, agree_lift, runs_peek]
    cases hkind : cursor.token.kind with
    | openBracket =>
      dsimp only
      rw [agree_lift, runs_advance]
      refine (hexpr _ _ (hobject.reads.next hkind (by decide) (by decide)) hlarger).andThen ?_
      intro index indexRow largest after hindex
      rw [agree_lift]
      refine runs_anyFault_expect fun hclosing => ?_
      have hboth := hobject.adds.append hindex.adds
      refine agree_startOf (hboth.has htable) ?_
      refine (agree_addFrom htable hboth (hindex.reads.next hclosing (by decide) (by decide))
        (.element · object index) (fun _ => rfl) (fun _ => rfl) (fun _ => rfl) _).andThen ?_
      intro place row largest after hmade
      exact ih hmade
    | dot =>
      dsimp only
      have hnext := hobject.reads.next hkind (by decide) (by decide)
      rw [agree_lift, runs_advance, agree_lift, runs_peek]
      split
      case isFalse => exact agree_fail _
      case isTrue hname =>
        rw [agree_lift, runs_advance]
        refine agree_startOf (hobject.adds.has htable) ?_
        refine (agree_addFrom htable hobject.adds (hnext.next hname (by decide) (by decide))
          (.property · object cursor.next.token.text) (fun _ => rfl) (fun _ => rfl) (fun _ => rfl) _).andThen ?_
        intro place row largest after hmade
        exact ih hmade
    | _ => exact agree_pure hobject

variable {below : Parsing.Grammar} {tabledBelow : Grammar}

theorem tabulates_unaryAround (hunary : Tabulates text below.unary tabledBelow.unary)
    (hexpr : Tabulates text expr tabled) :
    Tabulates text (Parsing.unaryAround below expr) (unaryAround text tabledBelow tabled) := by
  intro cursor table hreads htable
  rw [Parsing.unaryAround, unaryAround, agree_lift, runs_peek]
  split
  case isTrue hoperator =>
    have hnext := hreads.next_of_ne Parsing.isUnary (by rw [hoperator]; decide) (by rw [hoperator]; decide)
    rw [agree_lift, runs_advance]
    refine (hunary _ _ hnext htable).andThen ?_
    intro operand row larger after hoperand
    exact (agree_addFrom htable hoperand.adds hoperand.reads (.unary · cursor.token.kind operand) (fun _ => rfl)
      (fun _ => rfl) (fun _ => rfl) _).map
  case isFalse =>
    refine (tabulates_primary hexpr _ _ hreads htable).andThen ?_
    intro object row larger after hobject
    rw [agree_lift, runs_tokensLeft]
    exact agree_postfixes hexpr htable _ hobject

/-- The one grammar makes trees of what the other lays out. -/
structure Grammar.Tabulates (text : String) (grammar : Parsing.Grammar) (tabled : Grammar) : Prop where
  expression : TableParsing.Tabulates text grammar.expression tabled.expression
  binary (least : Nat) : TableParsing.Tabulates text (grammar.binary least) (tabled.binary least)
  unary : TableParsing.Tabulates text grammar.unary tabled.unary

theorem agree_operators (hbelow : Grammar.Tabulates text below tabledBelow) (htable : table.IsForest)
    (least fuel : Nat) {left : Expr Place} {row : Nat} {larger : Table} {cursor : Cursor}
    (hleft : Made text table left row larger cursor) :
    Agree (Parsing.operators below least fuel left) (operators text tabledBelow least fuel row) cursor larger
      (Made text table) := by
  induction fuel generalizing left row larger cursor with
  | zero => exact agree_pure hleft
  | succ fuel ih =>
    rw [Parsing.operators, operators, agree_lift, runs_peek]
    dsimp only
    cases hoperator : Parsing.precedence? cursor.token.kind with
    | none => exact agree_pure hleft
    | some precedence =>
      dsimp only
      split
      case isTrue => exact agree_pure hleft
      case isFalse =>
        have hnext := hleft.reads.next_of_ne Parsing.precedence? (by rw [hoperator]; exact Option.some_ne_none _)
          (by rw [hoperator]; exact Option.some_ne_none _)
        rw [agree_lift, runs_advance]
        refine (hbelow.binary _ _ _ hnext (hleft.adds.isForest htable)).andThen ?_
        intro right rightRow largest after hright
        have hboth := hleft.adds.append hright.adds
        refine agree_startOf (hboth.has htable) ?_
        refine (agree_addFrom htable hboth hright.reads (.binary · cursor.token.kind left right) (fun _ => rfl)
          (fun _ => rfl) (fun _ => rfl) _).andThen ?_
        intro place row largest after hmade
        exact ih hmade

theorem tabulates_conditional (hbelow : Grammar.Tabulates text below tabledBelow) :
    Tabulates text (Parsing.conditional below) (conditional text tabledBelow) := by
  intro cursor table hreads htable
  rw [Parsing.conditional, conditional]
  refine (hbelow.binary _ _ _ hreads htable).andThen ?_
  intro condition conditionRow larger after hcondition
  have hlarger := hcondition.adds.isForest htable
  rw [agree_lift, runs_peek]
  split
  case isFalse => exact agree_pure hcondition
  case isTrue hquestion =>
    rw [agree_lift, runs_advance]
    refine (hbelow.expression _ _ (hcondition.reads.next hquestion (by decide) (by decide)) hlarger).andThen ?_
    intro whenTrue trueRow larger' middle hwhenTrue
    rw [agree_lift]
    refine runs_anyFault_expect fun hcolon => ?_
    refine (hbelow.expression _ _ (hwhenTrue.reads.next hcolon (by decide) (by decide))
      (hwhenTrue.adds.isForest hlarger)).andThen ?_
    intro whenFalse falseRow largest last hwhenFalse
    have hall := (hcondition.adds.append hwhenTrue.adds).append hwhenFalse.adds
    refine agree_startOf (hall.has htable) ?_
    exact (agree_addFrom htable hall hwhenFalse.reads (.conditional · condition whenTrue whenFalse) (fun _ => rfl)
      (fun _ => rfl) (fun _ => rfl) _).map

/-! ## Levels -/

theorem tabulates_none : Grammar.Tabulates text Parsing.Grammar.none Grammar.none where
  expression _ _ _ _ := agree_fail _
  binary _ _ _ _ _ := agree_fail _
  unary _ _ _ _ := agree_fail _

theorem tabulates_around (hbelow : Grammar.Tabulates text below tabledBelow) :
    Grammar.Tabulates text below.around (Grammar.around text tabledBelow) where
  expression := tabulates_conditional hbelow
  binary least cursor table hreads htable := by
    refine (tabulates_unaryAround hbelow.unary (tabulates_conditional hbelow) _ _ hreads htable).andThen ?_
    intro left row larger after hleft
    rw [agree_lift, runs_tokensLeft]
    exact agree_operators hbelow htable least _ hleft
  unary := tabulates_unaryAround hbelow.unary (tabulates_conditional hbelow)

theorem tabulates_levels (n : Nat) :
    Grammar.Tabulates text (Parsing.Grammar.levels n) (Grammar.levels text n) := by
  induction n with
  | zero => exact tabulates_around tabulates_none
  | succ n ih => exact tabulates_around ih

theorem tabulates_expression : Tabulates text Parsing.expression (expression text) :=
  (tabulates_levels Expr.mostLevels).expression

theorem tabulates_assignment : Tabulates text Parsing.assignment (assignment text) := by
  intro cursor table hreads htable
  rw [Parsing.assignment, assignment]
  refine (tabulates_expression _ _ hreads htable).andThen ?_
  intro target targetRow larger after htarget
  rw [agree_lift, runs_peek]
  dsimp only
  split
  case isFalse => exact agree_pure htarget
  case isTrue hoperator =>
    have hnext := htarget.reads.next_of_ne Token.Kind.isAssignment (by rw [hoperator]; decide)
      (by rw [hoperator]; decide)
    rw [agree_lift, runs_advance]
    refine (tabulates_expression _ _ hnext (htarget.adds.isForest htable)).andThen ?_
    intro value valueRow largest last hvalue
    have hboth := htarget.adds.append hvalue.adds
    refine agree_startOf (hboth.has htable) ?_
    exact (agree_addFrom htable hboth hvalue.reads (.assign · after.token.kind target value) (fun _ => rfl)
      (fun _ => rfl) (fun _ => rfl) _).map

/-! ## Texts -/

theorem runs_declaration_reads (hreads : cursor.Reads text) :
    Runs anyFault Parsing.declaration cursor fun _ after => after.Reads text := by
  rw [Parsing.declaration, runs_bind, runs_peek]
  split
  case isFalse => exact hreads
  case isTrue hword =>
    exact hreads.next_of_ne Token.Kind.isDeclaration (by rw [hword]; decide) (by rw [hword]; decide)

theorem Made.laidOut_eq {parsed : Parsed} {root : Nat} {table : Table} {after : Cursor}
    (h : Made text {} parsed.root root table after) :
    parsed.laidOut = { declaration := parsed.declaration, table, root } := by
  obtain ⟨htable, hroot⟩ := Prod.ext_iff.mp h.adds.added
  cases htable
  cases hroot
  rfl

/-- If both end alike, so do the runs on a text. -/
theorem Agree.run_eq {parser : Parser Parsed} {tabled : TableParser (Option Token.Kind × Nat)}
    (h : Agree parser tabled { rest := Token.scan text } {} fun parsed result table _ =>
      parsed.laidOut = { declaration := result.1, table, root := result.2 }) :
    run text tabled = (Parsing.run parser text).map Parsed.laidOut := by
  rw [run, Parsing.run, Parsing.run]
  rw [Agree] at h
  rcases hparser : parser { rest := Token.scan text } with ⟨offset, fault⟩ | ⟨parsed, after⟩
  · rw [hparser] at h
    rw [h]
    rfl
  · rw [hparser] at h
    obtain ⟨⟨declaration, root⟩, table, htabled, hlaidOut⟩ := h
    rw [htabled]
    exact congrArg Except.ok hlaidOut.symm

end TableParsing

open TableParsing

/-- Parsing a condition into a table is parsing it into a tree and laying the tree out. -/
theorem parseExpressionTable_eq (text : String) :
    parseExpressionTable text = (parseExpression text).map Parsed.laidOut := by
  refine Agree.run_eq ((tabulates_expression _ _ (Parsing.reads_scan text) isForest_empty).andThen ?_)
  intro root row table after hroot
  rw [agree_lift]
  exact Parsing.runs_anyFault_of_forall fun _ _ => agree_pure (Made.laidOut_eq hroot)

/-- Parsing an assignment into a table is parsing it into a tree and laying the tree out. -/
theorem parseAssignmentTable_eq (text : String) :
    parseAssignmentTable text = (parseAssignment text).map Parsed.laidOut := by
  refine Agree.run_eq (agree_lift.mpr ((runs_declaration_reads (Parsing.reads_scan text)).mono ?_))
  intro declaration between hbetween
  refine (tabulates_assignment _ _ hbetween isForest_empty).andThen ?_
  intro root row table after hroot
  rw [agree_lift]
  exact Parsing.runs_anyFault_of_forall fun _ _ => agree_pure (Made.laidOut_eq hroot)

end FlowPath
