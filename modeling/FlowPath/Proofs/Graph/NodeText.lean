import FlowPath.Proofs.Graph.Quoted
import FlowPath.Proofs.Token.Pieces
import Mathlib.Data.List.Forall2

/-!
# The statements of nodes

The statement of a node can be read again (`readBox`): its name, and in quotes its label, its shape and its
colour. The label comes back whatever characters it has, but the colour is not escaped, so it comes back only if
there is nothing in it to escape (`readBox_shapeStatement`). In the same way an end of a line in a colour, and
nothing else, breaks a statement into two lines (`newline_mem_shapeStatement`).
-/

namespace FlowPath.Graph

open Dot

/-- What the statement of a node says. -/
structure Box where
  name : List Char
  label : List Char
  shape : List Char
  colour : List Char
deriving DecidableEq, Repr

namespace Dot

/-- What stands behind a text that has to come first. -/
def expect (first text : List Char) : Option (List Char) :=
  if first.isPrefixOf text then some (text.drop first.length) else none

theorem expect_append (first rest : List Char) : expect first (first ++ rest) = some rest := by
  rw [expect, if_pos (List.isPrefixOf_iff_prefix.mpr (List.prefix_append first rest)), List.drop_left]

/-- Reads the statement of a node up to its colour: the name, the label and the shape, and what is left. -/
def readHead (line : List Char) : Option ((List Char × List Char × List Char) × List Char) := do
  let (name, rest) := line.span (· ≠ '[')
  let rest ← expect "[label=\"".toList rest
  let (label, rest) ← readQuoted rest
  let rest ← expect ", shape=\"".toList rest
  let (shape, rest) ← readQuoted rest
  let rest ← expect " style=filled fillcolor=\"".toList rest
  some ((name, label, shape), rest)

/-- Reads the statement of a node. -/
def readBox (line : List Char) : Option Box := do
  let ((name, label, shape), rest) ← readHead line
  let (colour, rest) ← readQuoted rest
  if rest = "]".toList then some { name, label, shape, colour } else none

/-- The statement that `shapeStatement` writes for these parts says this. -/
def boxOf (name label : List Char) (shape : Shape) (colour : String) : Box where
  name := name
  label := label.filter (· ≠ '\r')
  shape := shape.label.toList
  colour := colour.toList

theorem isPlain_shape (shape : Shape) : ∀ c ∈ shape.label.toList, isPlain c = true := by
  rw [← List.all_eq_true]
  cases shape <;> decide

theorem shapeStatement_eq (name label : List Char) (shape : Shape) (colour : String) :
    shapeStatement name label shape colour =
      name ++ ("[label=\"".toList ++ (escape label ++ '"' :: (", shape=\"".toList ++ (shape.label.toList ++
        '"' :: (" style=filled fillcolor=\"".toList ++ (colour.toList ++ '"' :: "]".toList)))))) := by
  simp only [shapeStatement, List.append_assoc]
  rfl

theorem readHead_shapeStatement {name : List Char} (hname : '[' ∉ name) (label : List Char) (shape : Shape)
    (colour : String) :
    readHead (shapeStatement name label shape colour) =
      some ((name, label.filter (· ≠ '\r'), shape.label.toList), colour.toList ++ '"' :: "]".toList) := by
  have hspan (rest : List Char) : (name ++ ("[label=\"".toList ++ rest)).span (· ≠ '[') =
      (name, "[label=\"".toList ++ rest) := by
    refine Token.span_append (fun c hc => decide_eq_true fun h => hname (h ▸ hc)) ?_
    rintro c ⟨⟩
    rfl
  rw [shapeStatement_eq, readHead, hspan]
  simp only [expect_append, readQuoted_escape, readQuoted_eq_iff.mpr (isPlain_shape shape),
    Option.bind_eq_bind, Option.bind_some]

/-- A statement says what it should exactly if the colour has nothing to escape. -/
theorem readBox_shapeStatement {name : List Char} (hname : '[' ∉ name) {label : List Char} {shape : Shape}
    {colour : String} :
    readBox (shapeStatement name label shape colour) = some (boxOf name label shape colour) ↔
      ∀ c ∈ colour.toList, isPlain c = true := by
  have hrest : readBox (shapeStatement name label shape colour) =
      (readQuoted (colour.toList ++ '"' :: "]".toList)).bind fun (read, rest) =>
        if rest = "]".toList then some { boxOf name label shape colour with colour := read } else none := by
    rw [readBox, readHead_shapeStatement hname]
    rfl
  rw [hrest, ← @readQuoted_eq_iff _ "]".toList]
  constructor
  · intro h
    obtain ⟨⟨read, rest⟩, hread, h⟩ := Option.bind_eq_some_iff.mp h
    dsimp only at h
    split at h
    · rename_i hend
      have hcolour : read = colour.toList := congrArg Box.colour (Option.some.inj h)
      rw [hread, hcolour, hend]
    · cases h
  · intro h
    rw [h, Option.bind_some]
    exact if_pos rfl

/-- Of all the parts of a statement, only the colour can have an end of a line in it. -/
theorem newline_mem_shapeStatement {name : List Char} (hname : '\n' ∉ name) {label : List Char} {shape : Shape}
    {colour : String} : '\n' ∈ shapeStatement name label shape colour ↔ '\n' ∈ colour.toList := by
  have hshape : '\n' ∉ shape.label.toList := by cases shape <;> decide
  simp [shapeStatement, hname, hshape, newline_not_mem_escape label]

theorem dropReturn_shapeStatement (name label : List Char) (shape : Shape) (colour : String) :
    dropReturn (shapeStatement name label shape colour) = shapeStatement name label shape colour := by
  have hend : shapeStatement name label shape colour =
      name ++ "[label=\"".toList ++ escape label ++ "\", shape=\"".toList ++ shape.label.toList ++
        "\" style=filled fillcolor=\"".toList ++ colour.toList ++ ['"'] ++ [']'] := by
    simp only [shapeStatement, List.append_assoc]
    rfl
  rw [hend]
  exact dropReturn_append (by decide) _

theorem not_mem_idText {c : Char} (hn : c ≠ 'n') (hdigit : Text.isDigit c = false) (id : Nat) :
    c ∉ idText id := by
  intro h
  rcases List.mem_cons.mp h with rfl | h
  · exact hn rfl
  · rw [Text.isDigit_of_mem_toDigits h] at hdigit
    cases hdigit

/-- The statement was written to say what is in the box. -/
inductive Writes : List Char → Box → Prop where
  | shape {name : List Char} (hbracket : '[' ∉ name) (hnewline : '\n' ∉ name) (label : List Char)
    (shape : Shape) (colour : String) :
    Writes (shapeStatement name label shape colour) (boxOf name label shape colour)

namespace Writes

variable {statement : List Char} {box : Box}

theorem readHead_eq (h : Writes statement box) :
    (readHead statement).map (·.1) = some (box.name, box.label, box.shape) := by
  obtain ⟨hbracket, -, label, shape, colour⟩ := h
  rw [readHead_shapeStatement hbracket]
  rfl

theorem readBox_eq_iff (h : Writes statement box) :
    readBox statement = some box ↔ ∀ c ∈ box.colour, isPlain c = true := by
  obtain ⟨hbracket, -, label, shape, colour⟩ := h
  exact readBox_shapeStatement hbracket

theorem newline_mem_iff (h : Writes statement box) : '\n' ∈ statement ↔ '\n' ∈ box.colour := by
  obtain ⟨-, hnewline, label, shape, colour⟩ := h
  exact newline_mem_shapeStatement hnewline

theorem dropReturn_eq (h : Writes statement box) : dropReturn statement = statement := by
  obtain ⟨-, -, label, shape, colour⟩ := h
  exact dropReturn_shapeStatement _ label shape colour

theorem ne_nil (h : Writes statement box) : statement ≠ [] := by
  obtain ⟨-, -, label, shape, colour⟩ := h
  simp [shapeStatement]

end Writes

section Statements

variable {statements : List (List Char)} {boxes : List Box}

theorem map_readBox_eq_iff (h : List.Forall₂ Writes statements boxes) :
    statements.map readBox = boxes.map some ↔ ∀ box ∈ boxes, ∀ c ∈ box.colour, isPlain c = true := by
  induction h with
  | nil => simp
  | cons hfirst hrest ih =>
    rw [List.map_cons, List.map_cons, List.cons.injEq, hfirst.readBox_eq_iff, ih, List.forall_mem_cons]

theorem newline_not_mem_iff (h : List.Forall₂ Writes statements boxes) :
    (∀ s ∈ statements, '\n' ∉ s) ↔ ∀ box ∈ boxes, '\n' ∉ box.colour := by
  induction h with
  | nil => simp
  | cons hfirst hrest ih => rw [List.forall_mem_cons, List.forall_mem_cons, ih, hfirst.newline_mem_iff]

theorem forall_mem_of_writes (h : List.Forall₂ Writes statements boxes) :
    ∀ s ∈ statements, dropReturn s = s ∧ s ≠ [] := by
  induction h with
  | nil => simp
  | cons hfirst hrest ih => exact List.forall_mem_cons.mpr ⟨⟨hfirst.dropReturn_eq, hfirst.ne_nil⟩, ih⟩

end Statements

/-! ## Graphs -/

/-- What is to be said about the nodes of a graph, the terminal last. -/
def boxes (options : DrawOptions) (graph : Graph) : List Box :=
  graph.nodes.map (fun node =>
      boxOf (idText node.id) (nodeLabel options node) node.shape (fill options node.onPath)) ++
    (graph.terminal.map fun terminal =>
      boxOf (targetText .terminal) (stepLabel options (some terminal.step) terminal.label) .box
        (fill options terminal.onPath)).toList

theorem forall₂_nodeStatements (options : DrawOptions) (graph : Graph) :
    List.Forall₂ Writes (nodeStatements options graph) (boxes options graph) := by
  refine List.rel_append ?_ ?_
  · rw [List.forall₂_map_left_iff, List.forall₂_map_right_iff, List.forall₂_same]
    intro node _
    exact .shape (not_mem_idText (by decide) rfl node.id) (not_mem_idText (by decide) rfl node.id) _ _ _
  · cases graph.terminal with
    | none => exact .nil
    | some terminal => exact .cons (.shape (by decide) (by decide) _ _ _) .nil

theorem newline_not_mem_edgeStatement (edge : Edge) : '\n' ∉ edgeStatement edge := by
  have hid : ∀ id, '\n' ∉ idText id := not_mem_idText (by decide) rfl
  have htarget : '\n' ∉ targetText edge.target := by
    cases edge.target with
    | node id => exact hid id
    | terminal => decide
  unfold edgeStatement
  cases edge.label with
  | none => simp [hid, htarget]
  | some label => simp [hid, htarget, newline_not_mem_escape label.toList]

theorem exists_edgeStatement_eq (edge : Edge) : ∃ text, edgeStatement edge = text ++ [']'] := by
  unfold edgeStatement
  cases edge.label with
  | none => exact ⟨idText edge.source ++ "->".toList ++ targetText edge.target ++ " [".toList, by simp⟩
  | some label =>
    exact ⟨idText edge.source ++ "->".toList ++ targetText edge.target ++ "[label=\"".toList ++
      escape label.toList ++ "\"".toList, by simp⟩

theorem unlines_append (statements others : List (List Char)) :
    unlines (statements ++ others) = unlines statements ++ unlines others :=
  List.flatMap_append

/-- Where no colour has an end of a line in it, the lines of the body are the statements, with one empty line
before the edges. -/
theorem lines_bodyText {graph : Graph} {options : DrawOptions}
    (h : ∀ box ∈ boxes options graph, '\n' ∉ box.colour) :
    lines (graph.bodyText options).toList = nodeStatements options graph ++ [] :: edgeStatements graph := by
  have hwrites := forall₂_nodeStatements options graph
  have hbody : (graph.bodyText options).toList =
      unlines (nodeStatements options graph ++ [] :: edgeStatements graph) := by
    rw [unlines_append]
    simp [bodyText, nodeText, edgeText, unlines]
  rw [hbody]
  refine lines_unlines (List.forall_mem_append.mpr ⟨(newline_not_mem_iff hwrites).mpr h, ?_⟩)
    (List.forall_mem_append.mpr ⟨fun s hs => (forall_mem_of_writes hwrites s hs).1, ?_⟩)
  · refine List.forall_mem_cons.mpr ⟨List.not_mem_nil, fun s hs => ?_⟩
    obtain ⟨edge, -, rfl⟩ := List.mem_map.mp hs
    exact newline_not_mem_edgeStatement edge
  · refine List.forall_mem_cons.mpr ⟨rfl, fun s hs => ?_⟩
    obtain ⟨edge, -, rfl⟩ := List.mem_map.mp hs
    obtain ⟨text, htext⟩ := exists_edgeStatement_eq edge
    rw [htext]
    exact dropReturn_append (by decide) text

theorem filter_lines_bodyText {graph : Graph} {options : DrawOptions}
    (h : ∀ box ∈ boxes options graph, '\n' ∉ box.colour) :
    (lines (graph.bodyText options).toList).filter (fun line => !line.isEmpty) =
      nodeStatements options graph ++ edgeStatements graph := by
  have hnodes : ∀ s ∈ nodeStatements options graph, (!s.isEmpty) = true := by
    intro s hs
    simpa using (forall_mem_of_writes (forall₂_nodeStatements options graph) s hs).2
  have hedges : ∀ s ∈ edgeStatements graph, (!s.isEmpty) = true := by
    intro s hs
    obtain ⟨edge, -, rfl⟩ := List.mem_map.mp hs
    obtain ⟨text, htext⟩ := exists_edgeStatement_eq edge
    simp [htext]
  rw [lines_bodyText h, List.filter_append, List.filter_eq_self.mpr hnodes,
    List.filter_cons_of_neg (by simp), List.filter_eq_self.mpr hedges]

end Dot

/-- When the text of the nodes is well-formed. It has a line for each node, and one for the terminal, exactly
if no colour that is used has an end of a line in it. The lines say what they should exactly if these colours
have no quotes and no backslashes either. The names, the labels (without carriage returns) and the shapes are
right with all colours. Without an end of a line in a colour, the whole graph is made of the statements of the
nodes and the edges, each once and in order. -/
theorem nodeText_lines (graph : Graph) (options : DrawOptions) :
    let boxes := boxes options graph
    let lines := lines (graph.nodeText options).toList
    (lines.length = boxes.length ↔ ∀ box ∈ boxes, '\n' ∉ box.colour) ∧
    (lines.map readBox = boxes.map some ↔
      ∀ box ∈ boxes, '\n' ∉ box.colour ∧ '"' ∉ box.colour ∧ '\\' ∉ box.colour) ∧
    List.Forall₂
      (fun statement box => (readHead statement).map (·.1) = some (box.name, box.label, box.shape))
      (nodeStatements options graph) boxes ∧
    ((∀ box ∈ boxes, '\n' ∉ box.colour) →
      graph.dotText options = String.ofList (unlines ("digraph \x7b".toList ::
        (nodeStatements options graph ++ edgeStatements graph).map ("    ".toList ++ ·) ++
          ["\x7d".toList]))) := by
  intro boxes lines
  have hwrites : List.Forall₂ Writes (nodeStatements options graph) boxes :=
    forall₂_nodeStatements options graph
  have hlines : lines = Dot.lines (unlines (nodeStatements options graph)) := by
    rw [← String.toList_ofList (l := unlines (nodeStatements options graph))]
    rfl
  have hlength : lines.length = boxes.length ↔ ∀ box ∈ boxes, '\n' ∉ box.colour := by
    rw [hlines, ← hwrites.length_eq, length_lines_unlines_eq_iff, newline_not_mem_iff hwrites]
  have hread (h : ∀ box ∈ boxes, '\n' ∉ box.colour) :
      lines.map readBox = boxes.map some ↔ ∀ box ∈ boxes, ∀ c ∈ box.colour, isPlain c = true := by
    rw [hlines, lines_unlines ((newline_not_mem_iff hwrites).mpr h)
      fun s hs => (forall_mem_of_writes hwrites s hs).1, map_readBox_eq_iff hwrites]
  refine ⟨hlength, ⟨fun h => ?_, fun h => ?_⟩, hwrites.imp fun _ _ => Writes.readHead_eq, fun h => ?_⟩
  · have hnewline := hlength.mp (by simpa using congrArg List.length h)
    have hplain := (hread hnewline).mp h
    intro box hbox
    refine ⟨hnewline box hbox, fun hc => ?_, fun hc => ?_⟩ <;> cases hplain box hbox _ hc
  · refine (hread fun box hbox => (h box hbox).1).mpr fun box hbox c hc => ?_
    obtain ⟨-, hquote, hbackslash⟩ := h box hbox
    have hne : c ≠ '"' ∧ c ≠ '\\' := ⟨fun hc' => hquote (hc' ▸ hc), fun hc' => hbackslash (hc' ▸ hc)⟩
    simpa [isPlain] using hne
  · have hstatements := filter_lines_bodyText h
    rw [Dot.lines] at hstatements
    rw [dotText, hstatements]
    apply String.toList_inj.mp
    simp [unlines]

/-- A label with everything that is escaped, and a second line. -/
def noisy : Graph where
  nodes := [{ id := 0, step := some 1, label := "say(\"\\\\\")\r\nwait()", shape := .box, onPath := true }]
  terminal := some { step := 2, label := "return", onPath := false }
  edges := [{ source := 0, target := .terminal, label := none }]

theorem nodeText_lines_noisy :
    (lines (noisy.nodeText {}).toList).map readBox = (boxes {} noisy).map some ∧
    noisy.dotText {} = String.ofList (unlines ("digraph \x7b".toList ::
      (nodeStatements {} noisy ++ edgeStatements noisy).map ("    ".toList ++ ·) ++ ["\x7d".toList])) := by
  obtain ⟨-, hread, -, hdot⟩ := nodeText_lines noisy {}
  exact ⟨hread.mpr (by decide), hdot (by decide)⟩

/-- A quote in a colour ends the quoted string before the colour ends. -/
theorem not_nodeText_reads :
    ¬ ∀ (graph : Graph) (options : DrawOptions),
      (lines (graph.nodeText options).toList).map readBox = (boxes options graph).map some := by
  intro h
  have hquote := h { nodes := [{ id := 0, step := some 1, label := "a", shape := .box, onPath := true }] }
    { onPathFill := "a\"b" }
  revert hquote
  decide +kernel

end FlowPath.Graph
