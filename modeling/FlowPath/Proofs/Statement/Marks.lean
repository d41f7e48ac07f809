import Mathlib.Data.List.Forall2
import FlowPath.Proofs.Statement.Shown
import FlowPath.Statement.Marks

/-!
# Marks of trees

Two trees are alike if they differ in their marks alone, that is if they are the same without marks.
On trees that are alike `join` is a union: it keeps the statements (`unmarked_join`), and it is
associative, commutative and idempotent; a tree without marks is its neutral element. Lemmas on pairs
of such trees are proved by `alike_induction`, which goes through both at once.
-/

namespace FlowPath.Statement

/-- The property holds of all statements of the tree. -/
inductive Everywhere (p : Statement → Prop) : Statement → Prop where
  | intro {s : Statement} (self : p s) (inside : ∀ child ∈ s.children, Everywhere p child) :
      Everywhere p s

/-- The tree has no marks. -/
def Blank (s : Statement) : Prop := s.Everywhere (·.onPath = false)

theorem Everywhere.self {p : Statement → Prop} {s : Statement} (h : s.Everywhere p) : p s := by
  cases h; assumption

theorem Everywhere.inside {p : Statement → Prop} {s : Statement} (h : s.Everywhere p) :
    ∀ child ∈ s.children, child.Everywhere p := by
  cases h; assumption

theorem everywhere_iff {p : Statement → Prop} {s : Statement} :
    s.Everywhere p ↔ p s ∧ ∀ child ∈ s.children, child.Everywhere p :=
  ⟨fun h => ⟨h.self, h.inside⟩, fun h => .intro h.1 h.2⟩

theorem Everywhere.imp {p q : Statement → Prop} (hpq : ∀ s, p s → q s) {s : Statement}
    (h : s.Everywhere p) : s.Everywhere q := by
  induction h with
  | intro self _ ih => exact .intro (hpq _ self) ih

theorem Everywhere.and {p q : Statement → Prop} {s : Statement} (hp : s.Everywhere p)
    (hq : s.Everywhere q) : s.Everywhere fun t => p t ∧ q t := by
  induction hp with
  | intro self _ ih => exact .intro ⟨self, hq.self⟩ fun c hc => ih c hc (hq.inside c hc)

theorem mem_outlineAll {depth : Nat} {statements : List Statement} {t : Nat × Statement} :
    t ∈ outlineAll depth statements ↔ ∃ s ∈ statements, t ∈ outline depth s := by
  induction statements with
  | nil => simp [outlineAll]
  | cons s rest ih => simp [outlineAll, ih]

theorem everywhere_iff_outline {p : Statement → Prop} {s : Statement} (depth : Nat) :
    s.Everywhere p ↔ ∀ t ∈ outline depth s, p t.2 := by
  induction s generalizing depth with
  | node kind text role onPath children ih =>
    simp only [outline, List.forall_mem_cons, mem_outlineAll]
    constructor
    · rintro ⟨self, inside⟩
      exact ⟨self, fun t ⟨c, hc, ht⟩ => (ih c hc (depth + 1)).mp (inside c hc) t ht⟩
    · rintro ⟨self, inside⟩
      exact .intro self fun c hc => (ih c hc (depth + 1)).mpr fun t ht => inside t ⟨c, hc, ht⟩

instance {p : Statement → Prop} [DecidablePred p] : DecidablePred (Everywhere p) := fun _ =>
  decidable_of_iff _ (everywhere_iff_outline 0).symm

/-! ## Trees without their marks -/

theorem unmarkedAll_eq_map (statements : List Statement) :
    unmarkedAll statements = statements.map unmarked := by
  induction statements with
  | nil => rfl
  | cons s rest ih => rw [unmarkedAll, ih]; rfl

theorem unmarked_eq (s : Statement) :
    s.unmarked = { s with onPath := false, children := s.children.map unmarked } := by
  obtain ⟨kind, text, role, onPath, children⟩ := s
  rw [unmarked, unmarkedAll_eq_map]

@[simp] theorem unmarked_kind (s : Statement) : s.unmarked.kind = s.kind := by rw [unmarked_eq]

@[simp] theorem unmarked_role (s : Statement) : s.unmarked.role = s.role := by rw [unmarked_eq]

theorem unmarked_eq_unmarked_iff {s t : Statement} :
    s.unmarked = t.unmarked ↔ s.kind = t.kind ∧ s.text = t.text ∧ s.role = t.role ∧
      List.Forall₂ (fun a b => a.unmarked = b.unmarked) s.children t.children := by
  rw [unmarked_eq s, unmarked_eq t, Statement.mk.injEq, ← List.forall₂_eq_eq_eq]
  simp only [List.forall₂_map_left_iff, List.forall₂_map_right_iff, true_and]

theorem unmarkedAll_eq_unmarkedAll_iff {xs ys : List Statement} :
    unmarkedAll xs = unmarkedAll ys ↔ List.Forall₂ (fun a b => a.unmarked = b.unmarked) xs ys := by
  rw [unmarkedAll_eq_map, unmarkedAll_eq_map, ← List.forall₂_eq_eq_eq]
  simp only [List.forall₂_map_left_iff, List.forall₂_map_right_iff]

/-- Induction over two trees that are alike. -/
theorem alike_induction {motive : Statement → Statement → Prop}
    (node : ∀ kind text role a b xs ys,
      List.Forall₂ (fun x y => x.unmarked = y.unmarked ∧ motive x y) xs ys →
      motive ⟨kind, text, role, a, xs⟩ ⟨kind, text, role, b, ys⟩)
    {s t : Statement} (h : s.unmarked = t.unmarked) : motive s t := by
  induction s generalizing t with
  | node kind text role a xs ih =>
    obtain ⟨kind', text', role', b, ys⟩ := t
    obtain ⟨rfl, rfl, rfl, hxy⟩ := unmarked_eq_unmarked_iff.mp h
    replace hxy : List.Forall₂ (fun x y => x.unmarked = y.unmarked) xs ys := hxy
    refine node _ _ _ a b xs ys ?_
    clear h
    induction hxy with
    | nil => exact .nil
    | cons hhead _ ihTail =>
      rw [List.forall_mem_cons] at ih
      exact .cons ⟨hhead, ih.1 hhead⟩ (ihTail ih.2)

theorem unmarkedAll_children {s t : Statement} (h : s.unmarked = t.unmarked) :
    unmarkedAll s.children = unmarkedAll t.children :=
  unmarkedAll_eq_unmarkedAll_iff.mpr (unmarked_eq_unmarked_iff.mp h).2.2.2

theorem exists_alike {xs ys : List Statement} (h : unmarkedAll xs = unmarkedAll ys) {y : Statement}
    (hy : y ∈ ys) : ∃ x ∈ xs, x.unmarked = y.unmarked := by
  rw [unmarkedAll_eq_map, unmarkedAll_eq_map] at h
  exact List.mem_map.mp (h ▸ List.mem_map_of_mem hy)

/-- What does not go by marks holds everywhere in a tree if it does so in one that is alike. -/
theorem Everywhere.of_alike {p : Statement → Prop}
    (hp : ∀ s t : Statement, s.unmarked = t.unmarked → p s → p t) {s t : Statement}
    (h : s.unmarked = t.unmarked) (hs : s.Everywhere p) : t.Everywhere p := by
  induction s generalizing t with
  | node kind text role onPath children ih =>
    refine .intro (hp _ t h hs.self) fun child hchild => ?_
    obtain ⟨c, hc, hsame⟩ := exists_alike (unmarkedAll_children h) hchild
    exact ih c hc hsame (hs.inside c hc)

theorem Blank.unmarked {s : Statement} (h : s.Blank) : s.unmarked = s := by
  induction s with
  | node kind text role onPath children ih =>
    obtain ⟨self, inside⟩ := h
    have hchildren : children.map Statement.unmarked = children :=
      (List.map_congr_left fun child hc => ih child hc (inside child hc)).trans (List.map_id children)
    rw [unmarked_eq]
    simp only [hchildren]
    rw [show onPath = false from self]

theorem blank_unmarked (s : Statement) : s.unmarked.Blank := by
  induction s with
  | node kind text role onPath children ih =>
    rw [unmarked_eq]
    refine .intro rfl fun child hchild => ?_
    obtain ⟨c, hc, rfl⟩ := List.mem_map.mp hchild
    exact ih c hc

/-! ## Joining marks -/

theorem join_eq (s t : Statement) :
    s.join t = { s with onPath := s.onPath || t.onPath, children := joinAll s.children t.children } := by
  obtain ⟨kind, text, role, onPath, children⟩ := s
  rfl

@[simp] theorem join_role (s t : Statement) : (s.join t).role = s.role := by rw [join_eq]

/-- A join has the statements of its first tree. -/
@[simp] theorem unmarked_join (s t : Statement) : (s.join t).unmarked = s.unmarked := by
  induction s generalizing t with
  | node kind text role onPath children ih =>
    have hchildren : ∀ others, (joinAll children others).map unmarked = children.map unmarked := by
      clear t
      induction children with
      | nil => intro others; rfl
      | cons x rest ihRest =>
        rw [List.forall_mem_cons] at ih
        intro others
        cases others with
        | nil => rfl
        | cons y others => rw [joinAll, List.map_cons, List.map_cons, ih.1, ihRest ih.2]
    rw [join_eq, unmarked_eq, unmarked_eq]
    simp only [hchildren]

theorem join_of_blank_right {s t : Statement} (h : s.unmarked = t.unmarked) (ht : t.Blank) :
    s.join t = s := by
  revert ht
  refine alike_induction (motive := fun s t => t.Blank → s.join t = s) ?_ h
  intro kind text role a b xs ys hxy ht
  have hchildren : joinAll xs ys = xs := by
    have hys : ∀ y ∈ ys, y.Blank := ht.inside
    clear ht
    induction hxy with
    | nil => rfl
    | cons hhead _ ih =>
      rw [List.forall_mem_cons] at hys
      rw [joinAll, hhead.2 hys.1, ih hys.2]
  rw [join_eq]
  simp only [hchildren, show b = false from ht.self, Bool.or_false]

theorem join_comm {s t : Statement} (h : s.unmarked = t.unmarked) : s.join t = t.join s := by
  refine alike_induction (motive := fun s t => s.join t = t.join s) ?_ h
  intro kind text role a b xs ys hxy
  have hchildren : joinAll xs ys = joinAll ys xs := by
    induction hxy with
    | nil => rfl
    | cons hhead _ ih => rw [joinAll, joinAll, hhead.2, ih]
  simp only [join_eq, hchildren, Bool.or_comm a b]

theorem join_of_blank_left {s t : Statement} (h : s.unmarked = t.unmarked) (hs : s.Blank) :
    s.join t = t := (join_comm h).trans (join_of_blank_right h.symm hs)

@[simp] theorem join_self (s : Statement) : s.join s = s := by
  induction s with
  | node kind text role onPath children ih =>
    have hchildren : joinAll children children = children := by
      induction children with
      | nil => rfl
      | cons x rest ihRest =>
        rw [List.forall_mem_cons] at ih
        rw [joinAll, ih.1, ihRest ih.2]
    simp only [join_eq, hchildren, Bool.or_self]

theorem join_assoc {s t u : Statement} (hst : s.unmarked = t.unmarked) (htu : t.unmarked = u.unmarked) :
    (s.join t).join u = s.join (t.join u) := by
  revert u
  refine alike_induction (motive := fun s t => ∀ {u : Statement}, t.unmarked = u.unmarked →
    (s.join t).join u = s.join (t.join u)) ?_ hst
  intro kind text role a b xs ys hxy u htu
  obtain ⟨kind', text', role', c, zs⟩ := u
  obtain ⟨rfl, rfl, rfl, hyz⟩ := unmarked_eq_unmarked_iff.mp htu
  replace hyz : List.Forall₂ (fun x y => x.unmarked = y.unmarked) ys zs := hyz
  have hchildren : joinAll (joinAll xs ys) zs = joinAll xs (joinAll ys zs) := by
    clear htu
    induction hxy generalizing zs with
    | nil => rfl
    | cons hhead _ ih =>
      cases hyz with
      | cons hyz₁ hyz => simp only [joinAll, hhead.2 hyz₁, ih _ hyz]
  simp only [join_eq, hchildren, Bool.or_assoc]

/-! ## Joining the marks of sequences -/

theorem unmarked_program_iff {xs ys : List Statement} :
    (program xs).unmarked = (program ys).unmarked ↔ unmarkedAll xs = unmarkedAll ys := by
  rw [unmarked_eq_unmarked_iff, unmarkedAll_eq_unmarkedAll_iff]
  exact ⟨fun h => h.2.2.2, fun h => ⟨rfl, rfl, rfl, h⟩⟩

theorem join_join_join {s t u : Statement} (hst : s.unmarked = t.unmarked)
    (htu : t.unmarked = u.unmarked) : (s.join t).join (s.join u) = s.join (t.join u) := by
  have hsu := hst.trans htu
  calc (s.join t).join (s.join u)
      = ((s.join t).join s).join u := (join_assoc (by simp) (by simpa using hsu)).symm
    _ = ((t.join s).join s).join u := by rw [join_comm hst]
    _ = (t.join (s.join s)).join u := by rw [join_assoc hst.symm rfl]
    _ = (t.join s).join u := by rw [join_self]
    _ = (s.join t).join u := by rw [join_comm hst]
    _ = s.join (t.join u) := join_assoc hst htu

theorem joinAll_assoc {xs ys zs : List Statement} (hxy : unmarkedAll xs = unmarkedAll ys)
    (hyz : unmarkedAll ys = unmarkedAll zs) :
    joinAll (joinAll xs ys) zs = joinAll xs (joinAll ys zs) :=
  congrArg children (join_assoc (unmarked_program_iff.mpr hxy) (unmarked_program_iff.mpr hyz))

theorem joinAll_joinAll_joinAll {xs ys zs : List Statement} (hxy : unmarkedAll xs = unmarkedAll ys)
    (hyz : unmarkedAll ys = unmarkedAll zs) :
    joinAll (joinAll xs ys) (joinAll xs zs) = joinAll xs (joinAll ys zs) :=
  congrArg children (join_join_join (unmarked_program_iff.mpr hxy) (unmarked_program_iff.mpr hyz))

theorem unmarkedAll_joinAll (xs ys : List Statement) : unmarkedAll (joinAll xs ys) = unmarkedAll xs :=
  unmarked_program_iff.mp (unmarked_join (program xs) (program ys))

@[simp] theorem unmarked_unmarked (s : Statement) : s.unmarked.unmarked = s.unmarked :=
  (blank_unmarked s).unmarked

@[simp] theorem unmarkedAll_unmarkedAll (xs : List Statement) :
    unmarkedAll (unmarkedAll xs) = unmarkedAll xs := by
  simp [unmarkedAll_eq_map]

@[simp] theorem join_unmarked (s : Statement) : s.join s.unmarked = s :=
  join_of_blank_right (unmarked_unmarked s).symm (blank_unmarked s)

@[simp] theorem joinAll_unmarkedAll (xs : List Statement) : joinAll xs (unmarkedAll xs) = xs :=
  congrArg children (join_unmarked (program xs))

/-! ## More marks -/

/-- The statements of `marked` are those of `xs`, and they have the marks of `xs` and maybe more. -/
structure Extends (xs marked : List Statement) : Prop where
  alike : unmarkedAll xs = unmarkedAll marked
  keeps : joinAll xs marked = marked

theorem extends_refl (xs : List Statement) : Extends xs xs :=
  ⟨rfl, congrArg children (join_self (program xs))⟩

/-- Marks that are added to `xs` on the one side can be added to `marked` as well. -/
theorem Extends.joinAll_joinAll {xs marked added : List Statement} (h : Extends xs marked)
    (hadded : unmarkedAll xs = unmarkedAll added) :
    joinAll marked (joinAll xs added) = joinAll marked added := by
  have hcomm : joinAll marked xs = joinAll xs marked :=
    congrArg children (join_comm (unmarked_program_iff.mpr h.alike.symm))
  rw [← joinAll_assoc h.alike.symm hadded, hcomm, h.keeps]

theorem Extends.join {xs marked added : List Statement} (h : Extends xs marked)
    (hadded : unmarkedAll xs = unmarkedAll added) : Extends xs (joinAll marked added) := by
  refine ⟨h.alike.trans (unmarkedAll_joinAll marked added).symm, ?_⟩
  rw [← joinAll_assoc h.alike (h.alike.symm.trans hadded), h.keeps]

end FlowPath.Statement
