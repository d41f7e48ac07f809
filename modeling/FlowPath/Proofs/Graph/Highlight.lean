import FlowPath.Analysis
import FlowPath.Proofs.Graph.Reach
import FlowPath.Proofs.Path.Trace

/-!
# The highlighted path

The nodes of a graph that lie on the path are those of the marked statements, and the marks are those
of a run (`Traced`), which compaction keeps. So the path follows the trees of the graph
(`followed_of_traced`) and hangs together: `run_highlight` says that from the first node every node of
the path can be reached without leaving the path, and that the path comes to the terminal through a
return.
-/

namespace FlowPath

open Statement (Blank Traced TracedAll RunBy RolesFit shownAll compactSequence)

namespace Statement

/-! ## Functions of a marked program -/

theorem mem_functions_of_select {root function : Statement} {name : Option String}
    (h : root.select? name = some function) :
    function ∈ root.functions ∨ root.functions = [] ∧ function = root := by
  cases name with
  | some name => exact .inl (List.mem_of_find?_eq_some h)
  | none =>
    cases hf : root.functions with
    | nil => simp_all [select?]
    | cons first rest => simp_all [select?]

/-- The same function is selected before and after compaction. -/
theorem select?_compactProgram (root : Statement) (name : Option String) :
    root.compactProgram.select? name = (root.select? name).map compact := by
  cases name with
  | some name =>
    simp only [select?, functions_compactProgram, List.find?_map]
    rfl
  | none =>
    simp only [select?, functions_compactProgram]
    cases hf : root.functions with
    | nil => simp [compactProgram, hf]
    | cons first rest => rfl

theorem traced_of_select {root function : Statement} {name : Option String}
    (hkind : root.kind = .other ∨ root.kind = .function) (hroot : root.Traced)
    (hroles : root.Everywhere RolesFit) (h : root.select? name = some function) :
    (function.kind = .function ∨ function.kind = .returning ∨ function.kind = .other) ∧
      function.Traced ∧ function.Everywhere RolesFit := by
  have hsequence : root.kind = .function ∨ root.kind = .returning ∨ root.kind = .other :=
    hkind.elim (fun h => .inr (.inr h)) .inl
  rcases mem_functions_of_select h with hin | ⟨-, rfl⟩
  · obtain ⟨hchild, hfunction⟩ := List.mem_filter.mp hin
    exact ⟨.inl (of_decide_eq_true hfunction), hroot.inside hsequence function hchild,
      hroles.inside function hchild⟩
  · exact ⟨hsequence, hroot, hroles⟩

/-- A function that is drawn has the compacted statements of a run. -/
theorem exists_run_of_select {root function : Statement} {name : Option String}
    (hkind : root.kind = .other ∨ root.kind = .function) (hroot : root.Traced)
    (hroles : root.Everywhere RolesFit) (h : root.compactProgram.select? name = some function) :
    ∃ statements, function.children = compactSequence statements ∧
      ∀ s ∈ statements, s.Traced ∧ s.Everywhere RolesFit := by
  rw [select?_compactProgram] at h
  obtain ⟨original, horiginal, rfl⟩ := Option.map_eq_some_iff.mp h
  obtain ⟨hsequence, htraced, hfit⟩ := traced_of_select hkind hroot hroles horiginal
  exact ⟨original.children, rfl, fun s hs => ⟨htraced.inside hsequence s hs, hfit.inside s hs⟩⟩

end Statement

namespace Graph

variable {P : Nat → Prop} {known : Nat → Statement → Prop}

theorem dark_of_blank (hP : ∀ id s, known id s → (P id ↔ s.onPath = true)) {node : Numbered}
    {s : Statement} (h : Mirrors known node s) (hs : s.Blank) : Dark P node := by
  induction s generalizing node with
  | node kind text role onPath children ih =>
    obtain ⟨self, -, -, inside⟩ := h
    intro n hn
    rw [listing_cons, listing_nil, List.append_nil, List.mem_cons] at hn
    rcases hn with rfl | hn
    · rw [hP _ _ self, hs.self]
      exact Bool.false_ne_true
    · obtain ⟨child, hchild, hin⟩ := mem_listing.mp hn
      obtain ⟨c, hc, hmirrors⟩ := exists_of_forall₂ inside hchild
      have hc := Statement.mem_children_of_mem_shownChildren hc
      exact ih c hc hmirrors (hs.inside c hc) n (mem_listing.mpr ⟨child, List.mem_cons_self, hin⟩)

/-- Which branches a run took, from the roles of the children that ran. -/
theorem exists_taken {s : Statement} {ran : Option Statement.Role → Bool} (hran : RunBy s.kind ran)
    (hroles : s.RolesFit) :
    ∃ whenTrue whenFalse : Bool, (s.kind = .conditional → whenTrue = true ∨ whenFalse = true) ∧
      (s.kind = .loop → whenTrue = whenFalse) ∧
      ∀ child ∈ s.shownChildren,
        (if child.role = some .alternate then whenFalse else whenTrue) = ran child.role := by
  cases hk : s.kind with
  | conditional =>
    rw [hk] at hran
    refine ⟨ran (some .consequent), ran (some .alternate), fun _ => hran.1,
      fun h => absurd h (by decide), fun child hchild => ?_⟩
    have hchild := Statement.mem_children_of_mem_shownChildren hchild
    rcases (hroles child hchild).1 hk with hrole | hrole <;> simp [hrole]
  | loop =>
    refine ⟨ran (some .body), ran (some .body), fun h => absurd h (by decide), fun _ => rfl,
      fun child hchild => ?_⟩
    have hchild := Statement.mem_children_of_mem_shownChildren hchild
    simp [(hroles child hchild).2 hk]
  | function | assignment | returning | other =>
    refine ⟨true, true, fun _ => .inl rfl, fun _ => rfl, fun child hchild => ?_⟩
    simp [Statement.shownChildren, hk, Statement.Kind.isBranching] at hchild

theorem followed_of_traced (hP : ∀ id s, known id s → (P id ↔ s.onPath = true)) {node : Numbered}
    {s : Statement} (h : Mirrors known node s) (hs : s.Traced) (hroles : s.Everywhere RolesFit) :
    Followed P node := by
  induction s generalizing node with
  | node kind text role onPath children ih =>
    obtain ⟨self, flow, -, inside⟩ := h
    obtain ⟨ran, hran, marked, run, left⟩ := hs
    obtain ⟨whenTrue, whenFalse, hconditional, hloop, htaken⟩ := exists_taken hran hroles.self
    have hchild : ∀ child ∈ node.children, ∃ c ∈ children, Mirrors known child c ∧
        child.inTaken whenTrue whenFalse = ran c.role := by
      intro child hchild
      obtain ⟨c, hc, hmirrors⟩ := exists_of_forall₂ inside hchild
      exact ⟨c, Statement.mem_children_of_mem_shownChildren hc, hmirrors, hmirrors.role ▸ htaken c hc⟩
    refine .intro whenTrue whenFalse ((hP _ _ self).mpr marked) ?_ ?_ ?_ ?_
    · exact fun hflow => hconditional (ofKind_eq_conditional.mp (flow.symm.trans hflow))
    · exact fun hflow => hloop (ofKind_eq_loop.mp (flow.symm.trans hflow))
    · intro child hc ht
      obtain ⟨c, hc, hmirrors, hran⟩ := hchild child hc
      exact ih c hc hmirrors (run c hc (hran.symm.trans ht)) (hroles.inside c hc)
    · intro child hc ht
      obtain ⟨c, hc, hmirrors, hran⟩ := hchild child hc
      exact dark_of_blank hP hmirrors (left c hc (hran.symm.trans ht))

/-! ## Graphs of functions -/

/-- The node of that number lies on the path. -/
def Highlighted (graph : Graph) (id : Nat) : Prop :=
  ∃ node ∈ graph.nodes, node.id = id ∧ node.onPath = true

section Function

variable (function : Statement)

theorem nodes_ofFunction :
    (ofFunction function).nodes = (shownAll function.children).mapIdx nodeOf :=
  nodes_numberAll function.children

theorem edges_ofFunction :
    (ofFunction function).edges = (wiringOf (numberAll function.children {}).1).edges := rfl

theorem highlighted_iff {id : Nat} {s : Statement} (h : (shownAll function.children)[id]? = some s) :
    (ofFunction function).Highlighted id ↔ s.onPath = true := by
  rw [Highlighted, nodes_ofFunction]
  obtain ⟨hid, hs⟩ := List.getElem?_eq_some_iff.mp h
  constructor
  · rintro ⟨node, hnode, rfl, honPath⟩
    obtain ⟨i, hi, rfl⟩ := List.mem_mapIdx.mp hnode
    rw [nodeOf_onPath] at honPath
    simp only [nodeOf_id] at hs
    rwa [← hs]
  · intro honPath
    exact ⟨nodeOf id s, List.mem_mapIdx.mpr ⟨id, hid, by rw [hs]⟩, nodeOf_id id s,
      (nodeOf_onPath id s).trans honPath⟩

/-- Every node of the graph has its place in the numbered trees. -/
theorem exists_numbered {node : Node} (h : node ∈ (ofFunction function).nodes) :
    ∃ n ∈ listing (numberAll function.children {}).1, n.id = node.id := by
  rw [nodes_ofFunction] at h
  obtain ⟨i, hi, rfl⟩ := List.mem_mapIdx.mp h
  rw [← mem_ids, ids_numberAll_empty, nodeOf_id]
  exact List.mem_range.mpr hi

theorem exists_numbered_first {first : Node} (h : first ∈ (ofFunction function).nodes.head?) :
    ∃ n ∈ (numberAll function.children {}).1.head?, ∃ s ∈ function.children,
      n.id = 0 ∧ first.id = 0 ∧ first.onPath = s.onPath := by
  rw [nodes_ofFunction] at h
  cases hc : function.children with
  | nil => simp [hc] at h
  | cons s rest =>
    obtain rfl : nodeOf 0 s = first := by simpa [hc, Statement.shownAll_cons] using h
    rw [numberAll_cons, nodeOf_id, nodeOf_onPath]
    exact ⟨_, rfl, s, List.mem_cons_self, rfl, rfl, rfl⟩

/-- A graph of statements that ran hangs together along the path. -/
theorem reaches_of_traced (h : ∀ s ∈ function.children, s.Traced ∧ s.Everywhere RolesFit) :
    ∀ first ∈ (ofFunction function).nodes.head?, first.id = 0 ∧ first.onPath = true ∧
      ∀ node ∈ (ofFunction function).nodes, node.onPath = true →
        Reaches (ofFunction function).Highlighted (ofFunction function).edges first.id node.id := by
  have hmirrors := mirrors_numberAll_empty function.children
  have hfollowed : ∀ node ∈ (numberAll function.children {}).1,
      Followed (ofFunction function).Highlighted node := by
    intro node hnode
    obtain ⟨s, hs, hm⟩ := exists_of_forall₂ hmirrors hnode
    exact followed_of_traced (fun _ _ hknown => highlighted_iff function hknown) hm (h s hs).1 (h s hs).2
  intro first hfirst
  obtain ⟨n, hn, s, hs, hid, hfirst, honPath⟩ := exists_numbered_first function hfirst
  obtain ⟨hreach, -⟩ := connected_of_followed (wellFormed_numberAll function.children) hfollowed n hn
  rw [hid] at hreach
  rw [edges_ofFunction, hfirst]
  refine ⟨rfl, honPath.trans (h s hs).1.marked, fun node hnode honPath => ?_⟩
  obtain ⟨m, hm, hmid⟩ := exists_numbered function hnode
  rw [← hmid]
  exact hreach m hm ⟨node, hnode, hmid.symm, honPath⟩

/-- The terminal lies on the path if and only if a return on the path leads to it. -/
theorem onPath_terminal_iff {terminal : Terminal} (h : terminal ∈ (ofFunction function).terminal) :
    terminal.onPath = true ↔
      ∃ node ∈ (ofFunction function).nodes, node.shape = .circle ∧ node.onPath = true ∧
        ∃ edge ∈ (ofFunction function).edges, edge.source = node.id ∧ edge.target = .terminal := by
  have hsome : (numberAll function.children {}).2.terminal = some terminal := h
  have honPath : terminal.onPath = true ↔
      ∃ s ∈ shownAll function.children, s.kind = .returning ∧ s.onPath = true := by
    have hfold := onPath_terminal_foldl_add (shownAll function.children) {}
    rw [← draft_numberAll, hsome] at hfold
    simpa using hfold
  rw [honPath, nodes_ofFunction, edges_ofFunction]
  constructor
  · rintro ⟨s, hs, hkind, hmarked⟩
    have hmirrors := forall₂_listing (mirrors_numberAll_empty function.children)
    obtain ⟨n, hn, hknown, hflow, -, -⟩ := exists_of_forall₂ hmirrors.flip hs
    obtain ⟨hid, hplace⟩ := List.getElem?_eq_some_iff.mp hknown
    refine ⟨nodeOf n.id s, List.mem_mapIdx.mpr ⟨n.id, hid, by rw [hplace]⟩,
      nodeOf_shape_eq_circle.mpr hkind, (nodeOf_onPath n.id s).trans hmarked,
      { source := n.id, target := .terminal, label := none }, ?_, (nodeOf_id n.id s).symm, rfl⟩
    rw [(edges_perm (wellFormed_numberAll function.children)).mem_iff]
    refine List.mem_append_right _ (List.mem_flatMap.mpr ⟨n, hn, ?_⟩)
    rw [ownEdges, hflow, hkind]
    exact List.mem_cons_self
  · rintro ⟨node, hnode, hshape, hmarked, -⟩
    obtain ⟨i, hi, rfl⟩ := List.mem_mapIdx.mp hnode
    exact ⟨_, List.getElem_mem hi, nodeOf_shape_eq_circle.mp hshape, nodeOf_onPath i _ ▸ hmarked⟩

end Function

end Graph

namespace Analysis

theorem exists_of_run_eq_ok {options : AnalysisOptions} {inputs : List Value} {program : Statement}
    {analysis : Analysis} (h : run options inputs program = .ok analysis) :
    ∃ marked summary function, Path.annotate options.walk inputs program = (marked, .ok summary) ∧
      marked.compactProgram.select? options.function = some function ∧
      analysis = { tree := marked.compactProgram, summary, graph := Graph.ofFunction function } := by
  unfold run at h
  split at h
  · cases h
  · rename_i marked summary hmarked
    unfold Statement.selectFunction at h
    rcases hselect : marked.compactProgram.select? options.function with _ | function
    · simp only [hselect] at h
      cases h
    · simp only [hselect] at h
      exact ⟨marked, summary, function, hmarked, hselect, (Except.ok.inj h).symm⟩

/-- The highlighted path hangs together. In a program without marks whose branches and bodies have
the roles for it, under any inputs and options: the first node of the graph lies on the path, every
other node of the path can be reached from it along edges between nodes of the path, and the terminal
lies on the path if and only if a return on the path has an edge to it. -/
theorem run_highlight (options : AnalysisOptions) (inputs : List Value) (program : Statement)
    (analysis : Analysis) (hroot : program.kind = .other ∨ program.kind = .function)
    (hblank : program.Everywhere fun s => s.onPath = false) (hroles : program.Everywhere RolesFit)
    (h : Analysis.run options inputs program = .ok analysis) :
    let graph := analysis.graph
    (∀ first ∈ graph.nodes.head?, first.id = 0 ∧ first.onPath = true ∧
      ∀ node ∈ graph.nodes, node.onPath = true →
        Graph.Reaches graph.Highlighted graph.edges first.id node.id) ∧
    ∀ terminal ∈ graph.terminal, (terminal.onPath = true ↔
      ∃ node ∈ graph.nodes, node.shape = .circle ∧ node.onPath = true ∧
        ∃ edge ∈ graph.edges, edge.source = node.id ∧ edge.target = .terminal) := by
  obtain ⟨marked, summary, function, hmarked, hfunction, rfl⟩ := exists_of_run_eq_ok h
  obtain ⟨htraced, hsame⟩ := Path.traced_annotate hblank hmarked
  have hkind : marked.kind = program.kind := by
    rw [← Statement.unmarked_kind, ← hsame, Statement.unmarked_kind]
  have hfit := hroles.of_alike (fun _ _ => Statement.rolesFit_of_alike) hsame
  obtain ⟨statements, hchildren, hran⟩ :=
    Statement.exists_run_of_select (hkind ▸ hroot) htraced hfit hfunction
  have hcompact : ∀ s ∈ function.children, s.Traced ∧ s.Everywhere RolesFit := fun s hs => by
    rw [hchildren] at hs
    exact ⟨Statement.traced_compactSequence (fun s hs => (hran s hs).1) s hs,
      Statement.rolesFit_compactSequence (fun s hs => (hran s hs).2) s hs⟩
  exact ⟨Graph.reaches_of_traced function hcompact, fun _ => Graph.onPath_terminal_iff function⟩

/-- A function whose loop takes one branch of a conditional in its first round and the other one in its
second. -/
def bothBranches : Statement :=
  .program [.function "function f(go, more)"
    [.whileLoop "go" [.conditional "more" [.assignment "more = false"] [.assignment "go = false"]],
     .conditional "more" [.plain "print()"] [],
     .returning "return go"]]

theorem run_highlight_bothBranches :
    ∃ analysis, Analysis.run {} [.boolean true, .boolean true] bothBranches = .ok analysis ∧
      analysis.graph.nodes.map (·.onPath) = [true, true, true, true, true, false, true] ∧
      (∀ first ∈ analysis.graph.nodes.head?, first.id = 0 ∧ first.onPath = true ∧
        ∀ node ∈ analysis.graph.nodes, node.onPath = true →
          Graph.Reaches analysis.graph.Highlighted analysis.graph.edges first.id node.id) ∧
      ∀ terminal ∈ analysis.graph.terminal, (terminal.onPath = true ↔
        ∃ node ∈ analysis.graph.nodes, node.shape = .circle ∧ node.onPath = true ∧
          ∃ edge ∈ analysis.graph.edges, edge.source = node.id ∧ edge.target = .terminal) := by
  have hmarks : (Analysis.run {} [.boolean true, .boolean true] bothBranches).toOption.map
      (fun analysis => analysis.graph.nodes.map (·.onPath)) =
        some [true, true, true, true, true, false, true] := by
    unfold Analysis.run
    rw [Path.annotate_eq_fresh]
    decide +kernel
  rcases hrun : Analysis.run {} [.boolean true, .boolean true] bothBranches with e | analysis
  · rw [hrun] at hmarks
    cases hmarks
  · rw [hrun] at hmarks
    exact ⟨analysis, rfl, Option.some.inj hmarks,
      run_highlight {} _ bothBranches analysis (.inl rfl) (by decide) (by decide) hrun⟩

end Analysis

end FlowPath
