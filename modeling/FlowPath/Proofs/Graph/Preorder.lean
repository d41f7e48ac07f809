import FlowPath.Proofs.Graph.Numbering

/-!
# Numbering in the order of the text

Several sequences can be numbered one after the other into one draft. What comes out is the same as for all
their statements in one sequence (`draft_numberEach`, `ids_numberEach`, `mirrors_numberEach`): the nodes are
the shown statements in the order of the text, a node's number is its place among them, and the numbered trees
repeat the shape of the statements with the same numbers. The terminal comes up with the first return and keeps
its name (`exists_terminal_foldl_add`).
-/

namespace FlowPath.Graph

open Statement (shownAll)

/-- Numbers sequences one after the other, into one draft. -/
def numberEach : List (List Statement) → Draft → List (List Numbered) × Draft
  | [], draft => ([], draft)
  | statements :: rest, draft =>
    let (first, draft) := numberAll statements draft
    let (others, draft) := numberEach rest draft
    (first :: others, draft)

theorem nextId_numberAll (statements : List Statement) (draft : Draft) :
    (numberAll statements draft).2.nextId = draft.nextId + (shownAll statements).length := by
  rw [draft_numberAll, nextId_foldl_add]

/-! ## All sequences together -/

theorem draft_numberEach (lists : List (List Statement)) (draft : Draft) :
    (numberEach lists draft).2 = (shownAll lists.flatten).foldl Draft.add draft := by
  induction lists generalizing draft with
  | nil => rfl
  | cons statements rest ih =>
    rw [List.flatten_cons, Statement.shownAll_append, List.foldl_append, ← draft_numberAll statements draft]
    exact ih (numberAll statements draft).2

theorem ids_numberEach (lists : List (List Statement)) (draft : Draft) :
    ids (numberEach lists draft).1.flatten =
      List.range' draft.nextId (shownAll lists.flatten).length := by
  induction lists generalizing draft with
  | nil => rfl
  | cons statements rest ih =>
    rw [numberEach, List.flatten_cons, List.flatten_cons, ids_append, ids_numberAll, ih, nextId_numberAll,
      Statement.shownAll_append, List.length_append, List.range'_append_1]

theorem mirrors_numberEach {all : List Statement} (lists : List (List Statement)) (before : List Statement)
    (draft : Draft) (hall : all = before ++ shownAll lists.flatten) (hbefore : before.length = draft.nextId) :
    List.Forall₂ (List.Forall₂ (Mirrors fun id s => all[id]? = some s)) (numberEach lists draft).1 lists := by
  induction lists generalizing before draft with
  | nil => exact .nil
  | cons statements rest ih =>
    rw [List.flatten_cons, Statement.shownAll_append, ← List.append_assoc] at hall
    refine .cons (mirrors_numberAll before (shownAll rest.flatten) draft hall hbefore) ?_
    refine ih (before ++ shownAll statements) _ hall ?_
    rw [List.length_append, hbefore, nextId_numberAll]

/-! ## Nodes -/

/-- The node is the one of the statement at a place in the order of the text. -/
structure Node.Shows (node : Node) (place : Nat) (s : Statement) : Prop where
  id : node.id = place
  onPath : node.onPath = s.onPath
  returning (h : s.kind = .returning) : node.step = none ∧ node.label = "" ∧ node.shape = .circle
  other (h : s.kind ≠ .returning) :
    node.step = some (place + 1) ∧ node.label = s.text ∧
      node.shape = if s.kind.isBranching then .diamond else .box

theorem shows_nodeOf (place : Nat) (s : Statement) : (nodeOf place s).Shows place s where
  id := nodeOf_id place s
  onPath := nodeOf_onPath place s
  returning h := by
    rw [nodeOf, h]
    exact ⟨rfl, rfl, rfl⟩
  other h := by
    unfold nodeOf
    cases hkind : s.kind with
    | returning => exact absurd hkind h
    | function | assignment | conditional | loop | other => exact ⟨rfl, rfl, rfl⟩

theorem nodes_numberEach (lists : List (List Statement)) :
    (numberEach lists {}).2.nodes.toList = (shownAll lists.flatten).mapIdx nodeOf := by
  rw [draft_numberEach, nodes_foldl_add]
  simp

/-! ## The terminal -/

section Terminal

variable {draft : Draft} {statements : List Statement}

theorem Draft.terminal_add_of_ne {s : Statement} (h : s.kind ≠ .returning) :
    (draft.add s).terminal = draft.terminal := by
  rw [Draft.add, if_neg h]
  rfl

/-- The first return names the terminal. -/
theorem Draft.exists_terminal_add {s : Statement} (h : s.kind = .returning)
    (hnone : draft.terminal = none) :
    ∃ terminal ∈ (draft.add s).terminal, terminal.step = draft.nextId + 1 ∧ terminal.label = s.text := by
  rw [Draft.add, if_pos h, Draft.addReturn, show (draft.takeId.2.addNode _).terminal = none from hnone]
  exact ⟨_, rfl, rfl, rfl⟩

/-- A terminal keeps its name. -/
theorem Draft.exists_terminal_add_of_mem {terminal : Terminal} (h : terminal ∈ draft.terminal)
    (s : Statement) :
    ∃ after ∈ (draft.add s).terminal, after.step = terminal.step ∧ after.label = terminal.label := by
  by_cases hs : s.kind = .returning
  · rw [Draft.add, if_pos hs, Draft.addReturn, show (draft.takeId.2.addNode _).terminal = some terminal from h]
    exact ⟨_, rfl, rfl, rfl⟩
  · rw [Draft.terminal_add_of_ne hs]
    exact ⟨terminal, h, rfl, rfl⟩

theorem terminal_foldl_add_of_ne (h : ∀ s ∈ statements, s.kind ≠ .returning) :
    (statements.foldl Draft.add draft).terminal = draft.terminal := by
  induction statements generalizing draft with
  | nil => rfl
  | cons s rest ih =>
    obtain ⟨hs, hrest⟩ := List.forall_mem_cons.mp h
    rw [List.foldl_cons, ih hrest, Draft.terminal_add_of_ne hs]

theorem exists_terminal_foldl_add_of_mem {terminal : Terminal} (h : terminal ∈ draft.terminal)
    (statements : List Statement) :
    ∃ after ∈ (statements.foldl Draft.add draft).terminal,
      after.step = terminal.step ∧ after.label = terminal.label := by
  induction statements generalizing draft terminal with
  | nil => exact ⟨terminal, h, rfl, rfl⟩
  | cons s rest ih =>
    obtain ⟨next, hnext, hstep, hlabel⟩ := Draft.exists_terminal_add_of_mem h s
    obtain ⟨last, hlast, hstep', hlabel'⟩ := ih hnext
    exact ⟨last, hlast, hstep'.trans hstep, hlabel'.trans hlabel⟩

/-- The terminal has the place and the text of the first return. -/
theorem exists_terminal_foldl_add {before : List Statement} {s : Statement}
    (hbefore : ∀ t ∈ before, t.kind ≠ .returning) (hs : s.kind = .returning) (after : List Statement)
    (hnone : draft.terminal = none) :
    ∃ terminal ∈ ((before ++ s :: after).foldl Draft.add draft).terminal,
      terminal.step = draft.nextId + before.length + 1 ∧ terminal.label = s.text := by
  have hstill : (before.foldl Draft.add draft).terminal = none :=
    (terminal_foldl_add_of_ne hbefore).trans hnone
  obtain ⟨named, hnamed, hstep, hlabel⟩ := Draft.exists_terminal_add hs hstill
  obtain ⟨last, hlast, hstep', hlabel'⟩ := exists_terminal_foldl_add_of_mem hnamed after
  rw [nextId_foldl_add] at hstep
  rw [List.foldl_append, List.foldl_cons]
  exact ⟨last, hlast, hstep'.trans hstep, hlabel'.trans hlabel⟩

end Terminal

/-- The terminal is the one that the returns among the statements lead to: it has the place and the text of
the first of them, and lies on the path if one of them does. -/
structure Terminal.Ends (terminal : Terminal) (statements : List Statement) : Prop where
  first : ∃ before s after, statements = before ++ s :: after ∧ s.kind = .returning ∧
    (∀ t ∈ before, t.kind ≠ .returning) ∧ terminal.step = before.length + 1 ∧ terminal.label = s.text
  onPath : terminal.onPath = true ↔ ∃ s ∈ statements, s.kind = .returning ∧ s.onPath = true

theorem exists_first_returning {statements : List Statement} (h : ∃ s ∈ statements, s.kind = .returning) :
    ∃ before s after, statements = before ++ s :: after ∧ s.kind = .returning ∧
      ∀ t ∈ before, t.kind ≠ .returning := by
  have hfound : (statements.find? fun s => s.kind = .returning).isSome = true := by
    simpa [List.find?_isSome] using h
  obtain ⟨s, hs⟩ := Option.isSome_iff_exists.mp hfound
  obtain ⟨hkind, before, after, rfl, hbefore⟩ := List.find?_eq_some_iff_append.mp hs
  refine ⟨before, s, after, rfl, of_decide_eq_true hkind, fun t ht => ?_⟩
  simpa using hbefore t ht

theorem isSome_terminal_foldl_add (statements : List Statement) :
    (statements.foldl Draft.add {}).terminal.isSome = true ↔ ∃ s ∈ statements, s.kind = .returning := by
  constructor
  · intro hsome
    by_contra hnone
    rw [terminal_foldl_add_of_ne fun s hs hkind => hnone ⟨s, hs, hkind⟩] at hsome
    cases hsome
  · intro h
    obtain ⟨before, s, after, rfl, hs, hbefore⟩ := exists_first_returning h
    have hnone : ({} : Draft).terminal = none := rfl
    obtain ⟨terminal, hterminal, -⟩ := exists_terminal_foldl_add hbefore hs after hnone
    exact Option.isSome_iff_exists.mpr ⟨terminal, hterminal⟩

theorem ends_foldl_add {statements : List Statement} {terminal : Terminal}
    (h : terminal ∈ (statements.foldl Draft.add {}).terminal) : terminal.Ends statements where
  first := by
    have hreturning := (isSome_terminal_foldl_add statements).mp (Option.isSome_iff_exists.mpr ⟨terminal, h⟩)
    obtain ⟨before, s, after, rfl, hs, hbefore⟩ := exists_first_returning hreturning
    have hnone : ({} : Draft).terminal = none := rfl
    obtain ⟨named, hnamed, hstep, hlabel⟩ := exists_terminal_foldl_add hbefore hs after hnone
    obtain rfl : named = terminal := Option.mem_unique hnamed h
    refine ⟨before, s, after, rfl, hs, hbefore, ?_, hlabel⟩
    simpa using hstep
  onPath := by
    have honPath := onPath_terminal_foldl_add statements {}
    simpa [Option.mem_def.mp h] using honPath

/-! ## Main statement -/

/-- Numbering is a bijection with the order of the text. When sequences are numbered one after the other into
one draft, the nodes are the shown statements of all of them in the order of the text, and each has its place
for a number; the numbered trees repeat the statements, with the same numbers, classes and roles; and there is
a terminal if and only if there is a return, with the place and the text of the first one. -/
theorem numberEach_preorder (lists : List (List Statement)) :
    let numbered := (numberEach lists {}).1
    let draft := (numberEach lists {}).2
    let statements := shownAll lists.flatten
    (draft.nodes.size = statements.length ∧
      ∀ (place : Nat) (node : Node) (s : Statement),
        draft.nodes[place]? = some node → statements[place]? = some s → node.Shows place s) ∧
    (ids numbered.flatten = List.range statements.length ∧
      List.Forall₂ (List.Forall₂ (Mirrors fun id s => statements[id]? = some s)) numbered lists) ∧
    (draft.terminal.isSome = true ↔ ∃ s ∈ statements, s.kind = .returning) ∧
      ∀ terminal ∈ draft.terminal, terminal.Ends statements := by
  intro numbered draft statements
  have hnodes : draft.nodes.toList = statements.mapIdx nodeOf := nodes_numberEach lists
  have hdraft : draft = statements.foldl Draft.add {} := draft_numberEach lists {}
  refine ⟨⟨?_, fun place node s hnode hs => ?_⟩, ⟨?_, ?_⟩, ?_, fun terminal hterminal => ?_⟩
  · rw [← Array.length_toList, hnodes, List.length_mapIdx]
  · rw [← Array.getElem?_toList, hnodes, List.getElem?_mapIdx, hs] at hnode
    cases hnode
    exact shows_nodeOf place s
  · rw [List.range_eq_range']
    exact ids_numberEach lists {}
  · exact mirrors_numberEach lists [] {} rfl rfl
  · rw [hdraft]
    exact isSome_terminal_foldl_add statements
  · rw [hdraft] at hterminal
    exact ends_foldl_add hterminal

/-- Two sequences, each with a return inside a conditional or a loop. The terminal has the place of the first
return, and lies on the path because the second one does. -/
theorem numberEach_preorder_two_returns :
    let lists : List (List Statement) :=
      [[.plain "a", .conditional "b" [.returning "c"] []],
       [.whileLoop "d" [{ Statement.returning "e" with onPath := true }]]]
    let draft := (numberEach lists {}).2
    ∃ terminal ∈ draft.terminal, terminal.Ends (shownAll lists.flatten) ∧ terminal.step = 3 ∧
      terminal.label = "c" ∧ terminal.onPath = true ∧
      ∃ node, draft.nodes[3]? = some node ∧
        node.Shows 3 (.whileLoop "d" [{ Statement.returning "e" with onPath := true }]) := by
  intro lists draft
  obtain ⟨⟨-, hnodes⟩, -, -, hterminal⟩ := numberEach_preorder lists
  exact ⟨_, rfl, hterminal _ rfl, rfl, rfl, rfl, _, rfl, hnodes 3 _ _ rfl rfl⟩

end FlowPath.Graph
