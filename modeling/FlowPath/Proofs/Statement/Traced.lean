import FlowPath.Proofs.Statement.Compact
import FlowPath.Proofs.Statement.Marks

/-!
# Marks that a run leaves

`Traced` says how marks lie in a tree that was run: the statement is marked, the children that ran are
traced themselves, and the others have no marks at all. Which children run goes by their role, so the
members of a branch are marked all together or not at all. Joining the marks of two runs gives marks
of the same kind (`Traced.join`), and so does compaction (`traced_compactSequence`).
-/

namespace FlowPath.Statement

/-- The roles of the children that can have run, under a statement of the given kind. -/
def RunBy : Kind → (Option Role → Bool) → Prop
  | .function, ran | .returning, ran | .other, ran => ∀ role, ran role = true
  | .assignment, ran => ∀ role, ran role = false
  | .conditional, ran =>
    (ran (some .consequent) = true ∨ ran (some .alternate) = true) ∧
      ran none = false ∧ ran (some .body) = false
  | .loop, ran => ∀ role, ran role = true → role = some .body

/-- The marks of the tree are those of a run. -/
inductive Traced : Statement → Prop where
  | intro {s : Statement} (ran : Option Role → Bool) (kind : RunBy s.kind ran) (marked : s.onPath = true)
      (run : ∀ child ∈ s.children, ran child.role = true → Traced child)
      (left : ∀ child ∈ s.children, ran child.role = false → child.Blank) : Traced s

/-- The marks of a sequence are those of a run of the statements whose roles are in `ran`. -/
def TracedAll (ran : Option Role → Bool) (statements : List Statement) : Prop :=
  ∀ s ∈ statements, (ran s.role = true → s.Traced) ∧ (ran s.role = false → s.Blank)

theorem tracedAll_cons {ran : Option Role → Bool} {s : Statement} {rest : List Statement} :
    TracedAll ran (s :: rest) ↔
      ((ran s.role = true → s.Traced) ∧ (ran s.role = false → s.Blank)) ∧ TracedAll ran rest :=
  List.forall_mem_cons

theorem traced_iff {s : Statement} :
    s.Traced ↔ s.onPath = true ∧ ∃ ran, RunBy s.kind ran ∧ TracedAll ran s.children := by
  constructor
  · rintro ⟨ran, kind, marked, run, left⟩
    exact ⟨marked, ran, kind, fun child hc => ⟨run child hc, left child hc⟩⟩
  · rintro ⟨marked, ran, kind, h⟩
    exact .intro ran kind marked (fun child hc => (h child hc).1) fun child hc => (h child hc).2

theorem Traced.marked {s : Statement} (h : s.Traced) : s.onPath = true := (traced_iff.mp h).1

/-- Below functions, returns and plain statements everything runs. -/
theorem Traced.inside {s : Statement} (h : s.Traced)
    (hkind : s.kind = .function ∨ s.kind = .returning ∨ s.kind = .other) :
    ∀ child ∈ s.children, child.Traced := by
  obtain ⟨ran, kind, -, run, -⟩ := h
  intro child hc
  refine run child hc ?_
  rcases hkind with hk | hk | hk <;> rw [hk] at kind <;> exact kind _

/-! ## Joins -/

theorem RunBy.or {kind : Kind} {ran ran' : Option Role → Bool} (h : RunBy kind ran)
    (h' : RunBy kind ran') : RunBy kind fun role => ran role || ran' role := by
  cases kind with
  | function | returning | other => intro role; simp [h role]
  | assignment => intro role; simp [h role, h' role]
  | conditional =>
    obtain ⟨htaken, hnone, hbody⟩ := h
    obtain ⟨-, hnone', hbody'⟩ := h'
    refine ⟨htaken.imp ?_ ?_, by simp [hnone, hnone'], by simp [hbody, hbody']⟩ <;>
    · intro ht; simp [ht]
  | loop =>
    intro role hr
    rcases Bool.or_eq_true_iff.mp hr with hr | hr
    · exact h role hr
    · exact h' role hr

theorem tracedAll_joinAll_of_forall₂ {ran ran' : Option Role → Bool} {xs ys : List Statement}
    (h : List.Forall₂ (fun x y => x.unmarked = y.unmarked ∧
      (x.Traced → y.Traced → (x.join y).Traced)) xs ys)
    (hx : TracedAll ran xs) (hy : TracedAll ran' ys) :
    TracedAll (fun role => ran role || ran' role) (joinAll xs ys) := by
  induction h with
  | nil => exact fun _ h => absurd h List.not_mem_nil
  | @cons x y xs ys hxy _ ih =>
    obtain ⟨⟨hxRun, hxLeft⟩, hxs⟩ := tracedAll_cons.mp hx
    obtain ⟨⟨hyRun, hyLeft⟩, hys⟩ := tracedAll_cons.mp hy
    obtain ⟨hsame, hjoin⟩ := hxy
    have hrole : y.role = x.role := (unmarked_eq_unmarked_iff.mp hsame).2.2.1.symm
    rw [hrole] at hyRun hyLeft
    rw [joinAll, tracedAll_cons, join_role]
    refine ⟨?_, ih hxs hys⟩
    -- One of the two runs has marks here, or both, or none.
    cases hr : ran x.role <;> cases hr' : ran' x.role
    · rw [join_of_blank_left hsame (hxLeft hr)]
      exact ⟨fun h => absurd h Bool.false_ne_true, fun _ => hyLeft hr'⟩
    · rw [join_of_blank_left hsame (hxLeft hr)]
      exact ⟨fun _ => hyRun hr', fun h => absurd h.symm Bool.false_ne_true⟩
    · rw [join_of_blank_right hsame (hyLeft hr')]
      exact ⟨fun _ => hxRun hr, fun h => absurd h.symm Bool.false_ne_true⟩
    · exact ⟨fun _ => hjoin (hxRun hr) (hyRun hr'), fun h => absurd h.symm Bool.false_ne_true⟩

theorem Traced.join {s t : Statement} (h : s.unmarked = t.unmarked) (hs : s.Traced) (ht : t.Traced) :
    (s.join t).Traced := by
  revert hs ht
  refine alike_induction (motive := fun s t => s.Traced → t.Traced → (s.join t).Traced) ?_ h
  intro kind text role a b xs ys hxy hs ht
  obtain ⟨hmarked, ran, hran, hxs⟩ := traced_iff.mp hs
  obtain ⟨-, ran', hran', hys⟩ := traced_iff.mp ht
  rw [join_eq]
  refine traced_iff.mpr ⟨?_, _, hran.or hran', tracedAll_joinAll_of_forall₂ hxy hxs hys⟩
  exact Bool.or_eq_true_iff.mpr (.inl hmarked)

theorem TracedAll.joinAll {ran ran' : Option Role → Bool} {xs ys : List Statement}
    (h : unmarkedAll xs = unmarkedAll ys) (hx : TracedAll ran xs) (hy : TracedAll ran' ys) :
    TracedAll (fun role => ran role || ran' role) (joinAll xs ys) :=
  tracedAll_joinAll_of_forall₂
    ((unmarkedAll_eq_unmarkedAll_iff.mp h).imp fun _ _ h => ⟨h, Traced.join h⟩) hx hy

/-! ## Compaction -/

theorem Traced.retext {s : Statement} (h : s.Traced) (text : String) : { s with text }.Traced := by
  obtain ⟨ran, kind, marked, run, left⟩ := h
  exact .intro ran kind marked run left

/-- What holds everywhere in a tree, and does not go by texts or by more than the roles of children,
holds everywhere in the compacted tree. -/
theorem everywhere_compactInside {p : Statement → Prop}
    (htext : ∀ s text, p s → p { s with text })
    (hchildren : ∀ s children, p s → (∀ c ∈ children, ∃ x ∈ s.children, c.role = x.role) →
      p { s with children })
    {s : Statement} (h : s.Everywhere p) : s.compactInside.Everywhere p := by
  induction s with
  | node kind text role onPath children ih =>
    cases hk : kind.isBranching with
    | false => rwa [compactInside_of_not_branching hk]
    | true =>
      refine .intro ?_ fun child hchild => ?_
      · rw [compactInside_of_branching hk]
        refine hchildren _ _ h.self fun child hchild => ?_
        obtain ⟨x, hx, t, rfl⟩ := mem_mergeGroups hchild
        obtain ⟨c, hc, rfl⟩ := List.mem_map.mp hx
        exact ⟨c, hc, compactInside_role c⟩
      · obtain ⟨c, hc, t, rfl⟩ := mem_compactInside_children hchild hk
        obtain ⟨self, inside⟩ := ih c hc (h.inside c hc)
        exact .intro (htext _ t self) inside

theorem blank_compactInside {s : Statement} (h : s.Blank) : s.compactInside.Blank :=
  everywhere_compactInside (fun _ _ h => h) (fun _ _ h _ => h) h

theorem traced_compactInside {s : Statement} (h : s.Traced) : s.compactInside.Traced := by
  induction s with
  | node kind text role onPath children ih =>
    cases hk : kind.isBranching with
    | false => rwa [compactInside_of_not_branching hk]
    | true =>
      obtain ⟨ran, hkind, marked, run, left⟩ := h
      refine .intro ran (by rwa [compactInside_kind]) (by rwa [compactInside_onPath]) ?_ ?_
      · intro child hchild hran
        obtain ⟨c, hc, t, rfl⟩ := mem_compactInside_children hchild hk
        exact (ih c hc (run c hc (compactInside_role c ▸ hran))).retext t
      · intro child hchild hran
        obtain ⟨c, hc, t, rfl⟩ := mem_compactInside_children hchild hk
        obtain ⟨self, inside⟩ := blank_compactInside (left c hc (compactInside_role c ▸ hran))
        exact .intro self inside

/-- Compaction keeps the marks of a run. -/
theorem traced_compactSequence {statements : List Statement} (h : ∀ s ∈ statements, s.Traced) :
    ∀ s ∈ compactSequence statements, s.Traced := by
  intro s hs
  obtain ⟨x, hx, text, rfl⟩ := mem_compactSequence hs
  exact (traced_compactInside (h x hx)).retext text

/-! ## Roles -/

/-- The children of conditionals and loops have roles that fit. -/
def RolesFit (s : Statement) : Prop :=
  ∀ child ∈ s.children,
    (s.kind = .conditional → child.role = some .consequent ∨ child.role = some .alternate) ∧
      (s.kind = .loop → child.role = some .body)

instance : DecidablePred RolesFit := fun s =>
  inferInstanceAs (Decidable (∀ child ∈ s.children, _ ∧ _))

/-- The roles of the children do not go by marks. -/
theorem rolesFit_of_alike {s t : Statement} (h : s.unmarked = t.unmarked) (hs : s.RolesFit) :
    t.RolesFit := by
  intro child hchild
  obtain ⟨c, hc, hsame⟩ := exists_alike (unmarkedAll_children h) hchild
  rw [← unmarked_role child, ← hsame, unmarked_role, ← unmarked_kind t, ← h, unmarked_kind]
  exact hs c hc

theorem rolesFit_compactSequence {statements : List Statement}
    (h : ∀ s ∈ statements, s.Everywhere RolesFit) :
    ∀ s ∈ compactSequence statements, s.Everywhere RolesFit := by
  intro s hs
  obtain ⟨x, hx, text, rfl⟩ := mem_compactSequence hs
  obtain ⟨self, inside⟩ := everywhere_compactInside (fun _ _ h => h)
    (fun s children h hroles c hc => by
      obtain ⟨x, hx, hrole⟩ := hroles c hc
      exact hrole ▸ h x hx) (h x hx)
  exact .intro self inside

end FlowPath.Statement
