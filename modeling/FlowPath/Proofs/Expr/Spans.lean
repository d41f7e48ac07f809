import FlowPath.Proofs.Expr.Language
import FlowPath.Proofs.Expr.Postorder
import FlowPath.Proofs.Token.Tiling

/-!
# Stretches of text

Every node that is parsed notes a stretch of the text: the stretches of its children lie in it, one after the
other, and no stretch cuts a character in two (`Span.Covers`). The height that a node notes is right too, and
not too large. `Placed` says so of all nodes of a tree, and whatever is parsed is placed
(`placed_of_parseExpression`, `placed_of_parseAssignment`).

The tokens stand in the text one after the other, and a parser only goes forward: what it reads lies between the
offset at which it starts and the one at which it ends (`Located`). A parenthesis belongs to no node, so a node
may start after and end before what was read for it.
-/

namespace FlowPath

open String.Pos.Raw (IsValid)

/-- The stretch lies in the text and cuts no character in two. The parts lie in it, one after the other. -/
structure Span.Covers (text : String) (span : Span) (parts : List Span) : Prop where
  start_le_stop : span.start ≤ span.stop
  stop_le : span.stop ≤ text.utf8ByteSize
  valid_start : IsValid text ⟨span.start⟩
  valid_stop : IsValid text ⟨span.stop⟩
  inside : ∀ part ∈ parts, span.start ≤ part.start ∧ part.stop ≤ span.stop
  apart : parts.Pairwise fun part next => part.stop ≤ next.start

variable {text : String}

namespace Expr

/-- What is noted at the node fits what is noted at its children. -/
structure Fits (text : String) (node : Expr Place) : Prop where
  covers : node.note.span.Covers text (node.children.map fun child => child.note.span)
  height_eq : node.note.height = 1 + highest (node.children.map fun child => child.note.height)
  height_le : node.note.height ≤ mostLevels

/-- What is noted at each node of the tree fits what is noted at the node's children. -/
def Placed (text : String) (e : Expr Place) : Prop := ∀ node ∈ e.postorder, node.Fits text

theorem placed_iff {e : Expr Place} :
    e.Placed text ↔ e.Fits text ∧ ∀ child ∈ e.children, child.Placed text :=
  forall_mem_postorder_iff

theorem Placed.fits {e : Expr Place} (h : e.Placed text) : e.Fits text := (placed_iff.mp h).1

theorem Placed.of_mem {e node : Expr Place} (h : e.Placed text) (hnode : node ∈ e.postorder) : node.Placed text :=
  fun other hother => h other (postorder_subset hnode hother)

theorem Placed.measured {e : Expr Place} (h : e.Placed text) : e.Measured := by
  induction e using induction with
  | node e ih =>
    obtain ⟨hfits, hchildren⟩ := placed_iff.mp h
    rw [Measured, hfits.height_eq, highest_eq_heightAll fun child hchild => ih child hchild (hchildren child hchild),
      height_eq, children_bare]

end Expr

namespace Parsing

/-! ## Cursors in a text -/

/-- The tokens that are left stand in the text, one after the other, and after what has been taken. -/
structure Cursor.On (text : String) (cursor : Cursor) : Prop where
  standsIn : ∀ token ∈ cursor.rest, token.StandsIn text
  pairwise : cursor.rest.Pairwise fun t u => t.stop ≤ u.start
  taken_le : ∀ token ∈ cursor.rest, cursor.taken ≤ token.start
  valid : IsValid text ⟨cursor.taken⟩

theorem on_scan (text : String) : Cursor.On text { rest := Token.scan text } := by
  have htiles := Token.tiles_scan text
  have hstands := htiles.standsIn [] rfl
  rw [List.nil_append, String.ofList_toList] at hstands
  exact ⟨hstands, htiles.pairwise, htiles.offset_le, String.Pos.Raw.isValid_zero⟩

namespace Cursor.On

variable {cursor : Cursor} {kind : Token.Kind}

theorem token_standsIn (h : cursor.On text) (htoken : cursor.token.kind = kind) (hkind : kind ≠ .endOfText) :
    cursor.token.StandsIn text :=
  h.standsIn _ (cursor.rest_eq_cons htoken hkind ▸ List.mem_cons_self)

/-- A token that is taken lies between the offset before and the one after. -/
theorem taken_le_next (h : cursor.On text) (htoken : cursor.token.kind = kind) (hkind : kind ≠ .endOfText) :
    cursor.taken ≤ cursor.token.start ∧ cursor.token.start ≤ cursor.next.taken :=
  ⟨h.taken_le _ (cursor.rest_eq_cons htoken hkind ▸ List.mem_cons_self),
    (h.token_standsIn htoken hkind).start_le_stop⟩

theorem next (h : cursor.On text) (htoken : cursor.token.kind = kind) (hkind : kind ≠ .endOfText) :
    cursor.next.On text := by
  have hstands := h.standsIn
  have hpairwise := h.pairwise
  rw [cursor.rest_eq_cons htoken hkind] at hstands hpairwise
  obtain ⟨hnext, hothers⟩ := List.pairwise_cons.mp hpairwise
  exact ⟨(List.forall_mem_cons.mp hstands).2, hothers, hnext, (h.token_standsIn htoken hkind).valid_stop⟩

end Cursor.On

/-! ## Trees one after the other -/

/-- The trees stand one after the other between the two offsets. -/
inductive Between (text : String) : Nat → List (Expr Place) → Nat → Prop where
  | nil {lower upper : Nat} (hle : lower ≤ upper) : Between text lower [] upper
  | cons {lower upper : Nat} {e : Expr Place} {others : List (Expr Place)} (hplaced : e.Placed text)
      (hlower : lower ≤ e.note.span.start) (hothers : Between text e.note.span.stop others upper) :
      Between text lower (e :: others) upper

namespace Between

variable {lower upper : Nat} {trees : List (Expr Place)}

theorem mono (h : Between text lower trees upper) {lower' upper' : Nat} (hlower : lower' ≤ lower)
    (hupper : upper ≤ upper') : Between text lower' trees upper' := by
  induction h generalizing lower' with
  | nil hle => exact .nil (by omega)
  | cons hplaced hle _ ih => exact .cons hplaced (Nat.le_trans hlower hle) (ih (Nat.le_refl _) hupper)

theorem le (h : Between text lower trees upper) : lower ≤ upper := by
  induction h with
  | nil hle => exact hle
  | cons hplaced hle _ ih =>
    have hstop := hplaced.fits.covers.start_le_stop
    omega

theorem placed (h : Between text lower trees upper) : ∀ e ∈ trees, e.Placed text := by
  induction h with
  | nil => exact List.forall_mem_nil _
  | cons hplaced _ _ ih => exact List.forall_mem_cons.mpr ⟨hplaced, ih⟩

theorem inside (h : Between text lower trees upper) :
    ∀ e ∈ trees, lower ≤ e.note.span.start ∧ e.note.span.stop ≤ upper := by
  induction h with
  | nil => exact List.forall_mem_nil _
  | cons hplaced hle hothers ih =>
    refine List.forall_mem_cons.mpr ⟨⟨hle, hothers.le⟩, fun e hmem => ?_⟩
    have hstop := hplaced.fits.covers.start_le_stop
    have hinside := ih e hmem
    omega

theorem pairwise (h : Between text lower trees upper) :
    trees.Pairwise fun e e' => e.note.span.stop ≤ e'.note.span.start := by
  induction h with
  | nil => exact .nil
  | cons _ _ hothers ih => exact List.pairwise_cons.mpr ⟨fun e hmem => (hothers.inside e hmem).1, ih⟩

end Between

/-- The tree that was read is placed in the text, and it lies between the offset `lower` and the offset after
the last token taken. -/
structure Located (text : String) (lower : Nat) (e : Expr Place) (after : Cursor) : Prop where
  on : after.On text
  placed : e.Placed text
  lower_le : lower ≤ e.note.span.start
  le_taken : e.note.span.stop ≤ after.taken

variable {cursor after : Cursor} {lower : Nat} {e : Expr Place}

theorem Located.mono (h : Located text lower e after) {lower' : Nat} (hle : lower' ≤ lower) :
    Located text lower' e after :=
  { h with lower_le := Nat.le_trans hle h.lower_le }

/-- One more token is taken after the tree. -/
theorem Located.next (h : Located text lower e after) {kind : Token.Kind} (htoken : after.token.kind = kind)
    (hkind : kind ≠ .endOfText) : Located text lower e after.next :=
  have hnext := h.on.taken_le_next htoken hkind
  { h with
    on := h.on.next htoken hkind
    le_taken := Nat.le_trans h.le_taken (Nat.le_trans hnext.1 hnext.2) }

theorem Located.between (h : Located text lower e after) : Between text lower [e] after.taken :=
  .cons h.placed h.lower_le (.nil h.le_taken)

/-- A tree is read before other trees. -/
theorem Located.between_cons {others : List (Expr Place)} {upper : Nat} (h : Located text lower e after)
    (hothers : Between text after.taken others upper) : Between text lower (e :: others) upper :=
  .cons h.placed h.lower_le (hothers.mono h.le_taken (Nat.le_refl _))

/-- A node over trees that stand between its start and the last token taken is placed. -/
theorem runs_placeFrom_located {start : Nat} {children : List (Expr Place)} (node : Place → Expr Place)
    (hnote : ∀ place, (node place).note = place) (hchildren : ∀ place, (node place).children = children)
    (hon : cursor.On text) (hstart : IsValid text ⟨start⟩)
    (hbetween : Between text start children cursor.taken) {Q : Place → Cursor → Prop}
    (h : ∀ place, Located text start (node place) cursor → Q place cursor) :
    Runs anyFault (placeFrom start children) cursor Q := by
  rw [runs_placeFrom, runs_place]
  split
  · trivial
  · rename_i hheight
    refine h _ ⟨hon, Expr.placed_iff.mpr ⟨⟨?_, ?_, ?_⟩, ?_⟩, ?_, ?_⟩
    · rw [hnote, hchildren]
      exact ⟨hbetween.le, hon.valid.le_utf8ByteSize, hstart, hon.valid, List.forall_mem_map.mpr hbetween.inside,
        List.pairwise_map.mpr hbetween.pairwise⟩
    · rw [hnote, hchildren]
    · rw [hnote]
      exact Nat.le_of_not_lt hheight
    · rw [hchildren]
      exact hbetween.placed
    · rw [hnote]
    · rw [hnote]

/-- A node that starts with its first child is placed, if the other children come after that. -/
theorem runs_placeFrom_first {first : Expr Place} {others : List (Expr Place)} (node : Place → Expr Place)
    (hnote : ∀ place, (node place).note = place) (hchildren : ∀ place, (node place).children = first :: others)
    (hfirst : Located text lower first cursor) (hon : after.On text)
    (hothers : Between text cursor.taken others after.taken) {Q : Place → Cursor → Prop}
    (h : ∀ place, Located text lower (node place) after → Q place after) :
    Runs anyFault (placeFrom first.note.span.start (first :: others)) after Q :=
  runs_placeFrom_located node hnote hchildren hon hfirst.placed.fits.covers.valid_start
    (.cons hfirst.placed (Nat.le_refl _) (hothers.mono hfirst.le_taken (Nat.le_refl _)))
    fun place hlocated => h place (hlocated.mono hfirst.lower_le)

/-- Whatever the parser reads lies after the offset at which it starts. -/
def Places (text : String) (parser : Parser (Expr Place)) : Prop :=
  ∀ cursor : Cursor, cursor.On text → Runs anyFault parser cursor (Located text cursor.taken)

variable {expr : Parser (Expr Place)} {below : Grammar}

/-! ## Primaries -/

theorem places_elements (hexpr : Places text expr) (fuel : Nat) (done : List (Expr Place)) {cursor : Cursor}
    (hon : cursor.On text) :
    Runs anyFault (elements expr fuel done) cursor fun items after =>
      after.On text ∧ ∃ new, items = done.reverse ++ new ∧ Between text cursor.taken new after.taken := by
  induction fuel generalizing done cursor with
  | zero => exact ⟨hon, [], by simp, .nil (Nat.le_refl _)⟩
  | succ fuel ih =>
    rw [elements, runs_bind, runs_peek]
    split
    · exact ⟨hon, [], by simp, .nil (Nat.le_refl _)⟩
    refine (hexpr cursor hon).andThen ?_
    intro e after he
    rw [runs_bind, runs_peek]
    split
    case isFalse => exact ⟨he.on, [e], by simp, he.between⟩
    case isTrue hcomma =>
      have hnext := he.next hcomma (by decide)
      rw [runs_bind, runs_advance]
      refine (ih (e :: done) hnext.on).mono ?_
      rintro items last ⟨hlast, new, rfl, hnew⟩
      exact ⟨hlast, e :: new, by simp, hnext.between_cons hnew⟩

/-- A primary that is a single token. -/
theorem places_leaf (node : Place → Expr Place) (hnote : ∀ place, (node place).note = place)
    (hchildren : ∀ place, (node place).children = []) (hon : cursor.On text) {kind : Token.Kind}
    (htoken : cursor.token.kind = kind) (hkind : kind ≠ .endOfText) :
    Runs anyFault (do advance; return node (← place cursor.token.start cursor.token.stop [])) cursor
      (Located text cursor.taken) := by
  have hnext := hon.taken_le_next htoken hkind
  rw [runs_bind, runs_advance, runs_bind]
  exact runs_placeFrom_located node hnote hchildren (hon.next htoken hkind)
    (hon.token_standsIn htoken hkind).valid_start (.nil hnext.2) fun place hlocated => hlocated.mono hnext.1

theorem places_primary (hexpr : Places text expr) : Places text (primary expr) := by
  intro cursor hon
  rw [primary, runs_bind, runs_peek]
  split
  case h_1 hkind =>
    split
    · trivial
    · rename_i numeral _
      exact places_leaf (.number · numeral.toFloat) (fun _ => rfl) (fun _ => rfl) hon hkind (by decide)
  case h_2 hkind =>
    exact places_leaf (.string · cursor.token.value) (fun _ => rfl) (fun _ => rfl) hon hkind (by decide)
  case h_3 hkind => exact places_leaf (.boolean · true) (fun _ => rfl) (fun _ => rfl) hon hkind (by decide)
  case h_4 hkind => exact places_leaf (.boolean · false) (fun _ => rfl) (fun _ => rfl) hon hkind (by decide)
  case h_5 hkind =>
    exact places_leaf (.identifier · cursor.token.text) (fun _ => rfl) (fun _ => rfl) hon hkind (by decide)
  case h_6 hopening =>
    have hnext := hon.taken_le_next hopening (by decide)
    rw [runs_bind, runs_advance]
    refine (hexpr _ (hon.next hopening (by decide))).andThen ?_
    intro e after he
    rw [runs_bind]
    exact runs_anyFault_expect fun hclosing =>
      (he.next hclosing (by decide)).mono (Nat.le_trans hnext.1 hnext.2)
  case h_7 hopening =>
    have hnext := hon.taken_le_next hopening (by decide)
    rw [runs_bind, runs_advance, runs_bind, runs_tokensLeft]
    refine (places_elements hexpr _ [] (hon.next hopening (by decide))).andThen ?_
    rintro items after ⟨hafter, _, rfl, hitems⟩
    rw [runs_bind]
    refine runs_anyFault_expect fun hclosing => ?_
    have hlast := hafter.taken_le_next hclosing (by decide)
    rw [runs_bind]
    exact runs_placeFrom_located (.array · items) (fun _ => rfl) (fun _ => rfl)
      (hafter.next hclosing (by decide)) (hon.token_standsIn hopening (by decide)).valid_start
      (hitems.mono hnext.2 (Nat.le_trans hlast.1 hlast.2)) fun place hlocated => hlocated.mono hnext.1
  case h_8 => trivial

/-! ## Postfixes and operators -/

theorem places_postfixes (hexpr : Places text expr) (fuel : Nat) {object : Expr Place} {cursor : Cursor}
    (hobject : Located text lower object cursor) :
    Runs anyFault (postfixes expr fuel object) cursor (Located text lower) := by
  induction fuel generalizing object cursor with
  | zero => exact hobject
  | succ fuel ih =>
    rw [postfixes, runs_bind, runs_peek]
    split
    case h_1 hopening =>
      have hnext := hobject.next hopening (by decide)
      rw [runs_bind, runs_advance]
      refine (hexpr _ hnext.on).andThen ?_
      intro index after hindex
      rw [runs_bind]
      refine runs_anyFault_expect fun hclosing => ?_
      have hlast := hindex.next hclosing (by decide)
      rw [runs_bind]
      exact runs_placeFrom_first (.element · object index) (fun _ => rfl) (fun _ => rfl) hnext hlast.on
        hlast.between fun place hlocated => ih hlocated
    case h_2 hdot =>
      have hnext := hobject.next hdot (by decide)
      rw [runs_bind, runs_advance, runs_bind, runs_peek]
      split
      case isFalse => trivial
      case isTrue hname =>
        have hlast := hnext.next hname (by decide)
        rw [runs_bind, runs_advance, runs_bind]
        exact runs_placeFrom_first (.property · object cursor.next.token.text) (fun _ => rfl) (fun _ => rfl)
          hlast hlast.on (.nil (Nat.le_refl _)) fun place hlocated => ih hlocated
    case h_3 => exact hobject

theorem places_unaryAround (hunary : Places text below.unary) (hexpr : Places text expr) :
    Places text (unaryAround below expr) := by
  intro cursor hon
  rw [unaryAround, runs_bind, runs_peek]
  split
  case isTrue hoperator =>
    have hkind : cursor.token.kind ≠ .endOfText := fun h => by rw [h] at hoperator; cases hoperator
    have hnext := hon.taken_le_next rfl hkind
    rw [runs_bind, runs_advance]
    refine (hunary _ (hon.next rfl hkind)).andThen ?_
    intro operand after hoperand
    rw [runs_bind]
    exact runs_placeFrom_located (.unary · cursor.token.kind operand) (fun _ => rfl) (fun _ => rfl) hoperand.on
      (hon.token_standsIn rfl hkind).valid_start (hoperand.between.mono hnext.2 (Nat.le_refl _))
      fun place hlocated => hlocated.mono hnext.1
  case isFalse =>
    refine (places_primary hexpr cursor hon).andThen ?_
    intro object after hobject
    rw [runs_bind, runs_tokensLeft]
    exact places_postfixes hexpr _ hobject

/-- Whatever the parsers of the grammar read lies after the offset at which they start. -/
structure Grammar.Places (text : String) (grammar : Grammar) : Prop where
  expression : Parsing.Places text grammar.expression
  binary (least : Nat) : Parsing.Places text (grammar.binary least)
  unary : Parsing.Places text grammar.unary

theorem places_operators (hbelow : below.Places text) (least fuel : Nat) {left : Expr Place} {cursor : Cursor}
    (hleft : Located text lower left cursor) :
    Runs anyFault (operators below least fuel left) cursor (Located text lower) := by
  induction fuel generalizing left cursor with
  | zero => exact hleft
  | succ fuel ih =>
    rw [operators, runs_bind, runs_peek]
    dsimp only
    split
    case h_1 => exact hleft
    case h_2 precedence hoperator =>
      split
      case isTrue => exact hleft
      case isFalse =>
        have hkind : cursor.token.kind ≠ .endOfText := fun h => by rw [h] at hoperator; cases hoperator
        have hnext := hleft.next rfl hkind
        rw [runs_bind, runs_advance]
        refine (hbelow.binary _ _ hnext.on).andThen ?_
        intro right after hright
        rw [runs_bind]
        exact runs_placeFrom_first (.binary · cursor.token.kind left right) (fun _ => rfl) (fun _ => rfl) hnext
          hright.on hright.between fun place hlocated => ih hlocated

theorem places_conditional (hbelow : below.Places text) : Places text (conditional below) := by
  intro cursor hon
  rw [conditional]
  refine (hbelow.binary _ _ hon).andThen ?_
  intro condition after hcondition
  rw [runs_bind, runs_peek]
  split
  case isFalse => exact hcondition
  case isTrue hquestion =>
    have hnext := hcondition.next hquestion (by decide)
    rw [runs_bind, runs_advance]
    refine (hbelow.expression _ hnext.on).andThen ?_
    intro whenTrue middle hwhenTrue
    rw [runs_bind]
    refine runs_anyFault_expect fun hcolon => ?_
    have hmiddle := hwhenTrue.next hcolon (by decide)
    refine (hbelow.expression _ hmiddle.on).andThen ?_
    intro whenFalse last hwhenFalse
    rw [runs_bind]
    exact runs_placeFrom_first (.conditional · condition whenTrue whenFalse) (fun _ => rfl) (fun _ => rfl) hnext
      hwhenFalse.on (hmiddle.between_cons hwhenFalse.between) fun place hlocated => hlocated

/-! ## Levels -/

theorem places_none : Grammar.none.Places text where
  expression _ _ := trivial
  binary _ _ _ := trivial
  unary _ _ := trivial

theorem places_around (hbelow : below.Places text) : below.around.Places text where
  expression := places_conditional hbelow
  binary least cursor hon := by
    refine (places_unaryAround hbelow.unary (places_conditional hbelow) cursor hon).andThen ?_
    intro left after hleft
    rw [runs_bind, runs_tokensLeft]
    exact places_operators hbelow least _ hleft
  unary := places_unaryAround hbelow.unary (places_conditional hbelow)

theorem places_levels (n : Nat) : (Grammar.levels n).Places text := by
  induction n with
  | zero => exact places_around places_none
  | succ n ih => exact places_around ih

theorem places_expression : Places text expression := (places_levels Expr.mostLevels).expression

theorem places_assignment : Places text assignment := by
  intro cursor hon
  rw [assignment]
  refine (places_expression cursor hon).andThen ?_
  intro target after htarget
  rw [runs_bind, runs_peek]
  dsimp only
  split
  case isFalse => exact htarget
  case isTrue hoperator =>
    have hkind : after.token.kind ≠ .endOfText := fun h => by rw [h] at hoperator; cases hoperator
    have hnext := htarget.next rfl hkind
    rw [runs_bind, runs_advance]
    refine (places_expression _ hnext.on).andThen ?_
    intro value last hvalue
    rw [runs_bind]
    exact runs_placeFrom_first (.assign · after.token.kind target value) (fun _ => rfl) (fun _ => rfl) hnext
      hvalue.on hvalue.between fun place hlocated => hlocated

theorem runs_declaration_on (hon : cursor.On text) :
    Runs anyFault declaration cursor fun _ after => after.On text := by
  rw [declaration, runs_bind, runs_peek]
  split
  case isFalse => exact hon
  case isTrue hword =>
    have hkind : cursor.token.kind ≠ .endOfText := fun h => by rw [h] at hword; cases hword
    exact hon.next rfl hkind

/-- What holds at the end of every run holds of the result for a text. -/
theorem Runs.of_run_eq_ok {α : Type} {F : ParseFault → Prop} {parser : Parser α} {P : α → Prop} {value : α}
    (h : Runs F parser { rest := Token.scan text } fun value _ => P value) (hrun : run parser text = .ok value) :
    P value := by
  rcases run_cases h with ⟨result, after, hresult, hP⟩ | ⟨error, herror, -⟩
  · cases hrun.symm.trans hresult
    exact hP
  · cases hrun.symm.trans herror

end Parsing

open Parsing

/-! ## Parsed trees -/

variable {parsed : Parsed}

theorem placed_of_parseExpression (h : parseExpression text = .ok parsed) : parsed.root.Placed text := by
  have hruns : Runs anyFault (do
      let root ← expression
      finish
      return ({ declaration := none, root } : Parsed))
      { rest := Token.scan text } fun parsed _ => parsed.root.Placed text :=
    (places_expression _ (on_scan text)).andThen fun root after hroot =>
      runs_bind.mpr (runs_anyFault_of_forall fun _ _ => hroot.placed)
  exact hruns.of_run_eq_ok h

theorem placed_of_parseAssignment (h : parseAssignment text = .ok parsed) : parsed.root.Placed text := by
  have hruns : Runs anyFault (do
      let declaration ← declaration
      let root ← assignment
      finish
      return ({ declaration, root } : Parsed))
      { rest := Token.scan text } fun parsed _ => parsed.root.Placed text := by
    refine (runs_declaration_on (on_scan text)).andThen fun word between hbetween => ?_
    exact (places_assignment between hbetween).andThen fun root after hroot =>
      runs_bind.mpr (runs_anyFault_of_forall fun _ _ => hroot.placed)
  exact hruns.of_run_eq_ok h

end FlowPath
