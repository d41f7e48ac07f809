import FlowPath.Expr.Parser

/-!
# Runs of parsers

`Runs F parser cursor Q` says how a parser ends that starts at a cursor: with a result and a cursor that
satisfy `Q`, or with one of the faults `F`. The lemmas here say what that comes to for the parsers that
all others are built from, so that a claim about a parser is followed through its steps. With every fault
admitted it says what a result must be like; with only some admitted it also says that there is one.
-/

namespace FlowPath.Parsing

variable {α β : Type} {F : ParseFault → Prop} {cursor : Cursor}

/-- The cursor after the next token. -/
def Cursor.next (cursor : Cursor) : Cursor :=
  { rest := cursor.rest.tail, taken := cursor.token.stop }

/-- The parser ends with a result that satisfies `Q`, or with one of the faults `F`. -/
def Runs (F : ParseFault → Prop) (parser : Parser α) (cursor : Cursor) (Q : α → Cursor → Prop) : Prop :=
  match parser cursor with
  | .ok (value, after) => Q value after
  | .error (_, fault) => F fault

/-- Every fault is admitted. -/
def anyFault (_ : ParseFault) : Prop := True

section Steps

variable {Q : α → Cursor → Prop}

theorem Runs.mono {parser : Parser α} {P : α → Cursor → Prop} (h : Runs F parser cursor P)
    (hQ : ∀ value after, P value after → Q value after) : Runs F parser cursor Q := by
  unfold Runs at *
  split at h
  · exact hQ _ _ h
  · exact h

theorem runs_bind {parser : Parser β} {next : β → Parser α} :
    Runs F (parser >>= next) cursor Q ↔
      Runs F parser cursor fun value after => Runs F (next value) after Q := by
  simp only [Runs, bind, StateT.bind]
  rcases parser cursor with _ | ⟨_, _⟩ <;> rfl

/-- What comes first ends as its own lemma says, and the rest goes on from there. -/
theorem Runs.andThen {parser : Parser β} {next : β → Parser α} {P : β → Cursor → Prop}
    (h : Runs F parser cursor P) (hnext : ∀ value after, P value after → Runs F (next value) after Q) :
    Runs F (parser >>= next) cursor Q :=
  runs_bind.mpr (h.mono hnext)

end Steps

theorem runs_peek {Q : Token → Cursor → Prop} : Runs F peek cursor Q ↔ Q cursor.token cursor := Iff.rfl

theorem runs_advance {Q : Unit → Cursor → Prop} :
    Runs F advance cursor Q ↔ Q () cursor.next := Iff.rfl

theorem runs_tokensLeft {Q : Nat → Cursor → Prop} :
    Runs F tokensLeft cursor Q ↔ Q cursor.rest.length cursor := Iff.rfl

theorem runs_expect {kind : Token.Kind} {Q : Unit → Cursor → Prop} :
    Runs F (expect kind) cursor Q ↔
      if cursor.token.kind = kind then Q () cursor.next
      else F (.expected kind cursor.token.kind) := by
  rw [expect, runs_bind, runs_peek]
  split <;> rfl

theorem runs_place {start stop : Nat} {children : List (Expr Place)} {Q : Place → Cursor → Prop} :
    Runs F (place start stop children) cursor Q ↔
      if Expr.mostLevels < 1 + Expr.highest (children.map fun child => child.note.height) then F .tooDeep
      else Q { span := { start, stop },
               height := 1 + Expr.highest (children.map fun child => child.note.height) } cursor := by
  rw [place]
  split <;> rfl

theorem runs_placeFrom {start : Nat} {children : List (Expr Place)} {Q : Place → Cursor → Prop} :
    Runs F (placeFrom start children) cursor Q ↔ Runs F (place start cursor.taken children) cursor Q :=
  Iff.rfl

theorem runs_anyFault_of_forall {parser : Parser α} {Q : α → Cursor → Prop} (h : ∀ value after, Q value after) :
    Runs anyFault parser cursor Q := by
  rw [Runs]
  split
  · exact h _ _
  · trivial

theorem runs_anyFault_expect {kind : Token.Kind} {Q : Unit → Cursor → Prop}
    (h : cursor.token.kind = kind → Q () cursor.next) : Runs anyFault (expect kind) cursor Q := by
  rw [runs_expect]
  split
  · exact h ‹_›
  · trivial

theorem runs_anyFault_place {start stop : Nat} {children : List (Expr Place)} {Q : Place → Cursor → Prop}
    (h : ∀ place, Q place cursor) : Runs anyFault (place start stop children) cursor Q := by
  rw [runs_place]
  split
  · trivial
  · exact h _

/-! ## Cursors -/

theorem Cursor.token_cons (token : Token) (rest : List Token) (taken : Nat) :
    (⟨token :: rest, taken⟩ : Cursor).token = token := rfl

theorem Cursor.next_cons (token : Token) (rest : List Token) (taken : Nat) :
    (⟨token :: rest, taken⟩ : Cursor).next = ⟨rest, token.stop⟩ := rfl

theorem Cursor.rest_eq_cons {kind : Token.Kind} (h : cursor.token.kind = kind) (hkind : kind ≠ .endOfText) :
    cursor.rest = cursor.token :: cursor.next.rest := by
  obtain ⟨_ | _, _⟩ := cursor
  · exact absurd h.symm hkind
  · rfl

end FlowPath.Parsing
