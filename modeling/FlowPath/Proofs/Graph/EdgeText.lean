import FlowPath.Proofs.Graph.NodeText

/-!
# The statements of edges

The text of the edges can be read again (`readEdges`), line by line and in each line from left to right: the node
that the edge leaves, where it leads, and its label. Every part is found whatever stands behind it
(`readId_append`, `readTarget_append`, `readLabel_append`): no digit follows a name, and a label ends with the first
quote that is not escaped. Labels lose their carriage returns and nothing else, so two graphs have the same text
exactly if their edges are the same up to that.
-/

namespace FlowPath.Graph

/-- The edge with no carriage returns in its label. -/
def Edge.withoutReturns (edge : Edge) : Edge :=
  { edge with label := edge.label.map fun label => String.ofList (label.toList.filter (· ≠ '\r')) }

namespace Dot

/-! ## Reading -/

/-- Reads the name of a node. -/
def readId (text : List Char) : Option (Nat × List Char) := do
  let text ← expect ['n'] text
  let (digits, rest) := text.span Text.isDigit
  if digits.isEmpty then none else some (Decimal.valueOfDigits digits, rest)

/-- Reads where an edge leads. -/
def readTarget (text : List Char) : Option (Target × List Char) :=
  match expect "return".toList text with
  | some rest => some (.terminal, rest)
  | none => (readId text).map fun (id, rest) => (.node id, rest)

/-- Reads the attributes of an edge. They are all that is left of its statement. -/
def readLabel (text : List Char) : Option (Option String) :=
  if text = " []".toList then some none
  else do
    let text ← expect "[label=\"".toList text
    let (label, rest) ← readQuoted text
    if rest = "]".toList then some (some (String.ofList label)) else none

/-- Reads the statement of an edge. -/
def readEdge (line : List Char) : Option Edge := do
  let (source, rest) ← readId line
  let rest ← expect "->".toList rest
  let (target, rest) ← readTarget rest
  let label ← readLabel rest
  some { source, target, label }

/-- Reads the edges of a graph, a line each. -/
def readEdges (text : String) : Option (List Edge) := (lines text.toList).mapM readEdge

/-! ## The parts of a statement -/

/-- The attributes of an edge as they are written. -/
def labelText : Option String → List Char
  | some label => "[label=\"".toList ++ (escape label.toList ++ '"' :: "]".toList)
  | none => " []".toList

theorem labelText_some (label : String) :
    labelText (some label) = "[label=\"".toList ++ (escape label.toList ++ '"' :: "]".toList) := rfl

theorem edgeStatement_eq (edge : Edge) :
    edgeStatement edge =
      idText edge.source ++ ("->".toList ++ (targetText edge.target ++ labelText edge.label)) := by
  rcases edge with ⟨source, target, _ | label⟩ <;>
    simp only [edgeStatement, labelText_some, List.append_assoc] <;> rfl

theorem readId_append (id : Nat) {rest : List Char} (hrest : ∀ c ∈ rest.head?, Text.isDigit c = false) :
    readId (idText id ++ rest) = some (id, rest) := by
  have hdigits : ∀ c ∈ Nat.toDigits 10 id, Text.isDigit c = true := fun _ => Text.isDigit_of_mem_toDigits
  have hvalue : Decimal.valueOfDigits (Nat.toDigits 10 id) = id := Nat.ofDigitChars_ten_toDigits
  have hname : idText id ++ rest = ['n'] ++ (Nat.toDigits 10 id ++ rest) := rfl
  rw [readId, hname, expect_append, Option.bind_eq_bind, Option.bind_some, Token.span_append hdigits hrest]
  simp [hvalue]

theorem readTarget_append (target : Target) {rest : List Char}
    (hrest : ∀ c ∈ rest.head?, Text.isDigit c = false) :
    readTarget (targetText target ++ rest) = some (target, rest) := by
  cases target with
  | node id =>
    -- A name starts with another letter than the terminal.
    have hother : expect "return".toList (idText id ++ rest) = none := rfl
    have hread : readTarget (idText id ++ rest) = some (.node id, rest) := by
      rw [readTarget, hother, readId_append id hrest]
      rfl
    exact hread
  | terminal =>
    have hread : readTarget ("return".toList ++ rest) = some (.terminal, rest) := by
      rw [readTarget, expect_append]
    exact hread

theorem readLabel_labelText (label : Option String) :
    readLabel (labelText label) =
      some (label.map fun label => String.ofList (label.toList.filter (· ≠ '\r'))) := by
  cases label with
  | none => rfl
  | some label =>
    have hlabelled : labelText (some label) ≠ " []".toList := by
      intro h
      cases (List.cons.inj h).1
    rw [readLabel, if_neg hlabelled, labelText_some, expect_append, Option.bind_eq_bind, Option.bind_some,
      readQuoted_escape]
    rfl

theorem isDigit_head_labelText (label : Option String) :
    ∀ c ∈ (labelText label).head?, Text.isDigit c = false := by
  cases label <;> rintro c ⟨⟩ <;> rfl

theorem readEdge_edgeStatement (edge : Edge) :
    readEdge (edgeStatement edge) = some edge.withoutReturns := by
  have harrow (rest : List Char) : ∀ c ∈ ("->".toList ++ rest).head?, Text.isDigit c = false := by
    rintro c ⟨⟩
    rfl
  simp only [edgeStatement_eq, readEdge, readId_append _ (harrow _), expect_append,
    readTarget_append _ (isDigit_head_labelText edge.label), readLabel_labelText, Option.bind_eq_bind,
    Option.bind_some, Edge.withoutReturns]

theorem escape_filter (text : List Char) : escape (text.filter (· ≠ '\r')) = escape text := by
  induction text with
  | nil => rfl
  | cons c text ih =>
    by_cases hreturn : c = '\r'
    · subst hreturn
      exact ih
    · rw [List.filter_cons_of_pos (by simpa using hreturn)]
      exact congrArg (escapeChar c ++ ·) ih

theorem edgeStatement_withoutReturns (edge : Edge) :
    edgeStatement edge.withoutReturns = edgeStatement edge := by
  rw [edgeStatement_eq, edgeStatement_eq]
  rcases edge with ⟨source, target, _ | label⟩
  · rfl
  · simp only [Edge.withoutReturns, Option.map_some, labelText_some, String.toList_ofList, escape_filter]

/-! ## All edges -/

theorem lines_edgeText (graph : Graph) : lines graph.edgeText.toList = edgeStatements graph := by
  rw [edgeText, String.toList_ofList]
  refine lines_unlines (fun s hs => ?_) fun s hs => ?_
  · obtain ⟨edge, -, rfl⟩ := List.mem_map.mp hs
    exact newline_not_mem_edgeStatement edge
  · obtain ⟨edge, -, rfl⟩ := List.mem_map.mp hs
    obtain ⟨text, htext⟩ := exists_edgeStatement_eq edge
    rw [htext]
    exact dropReturn_append (by decide) text

theorem readEdges_eq (graph : Graph) :
    readEdges graph.edgeText = some (graph.edges.map Edge.withoutReturns) := by
  rw [readEdges, lines_edgeText, edgeStatements, List.mapM_map]
  induction graph.edges with
  | nil => rfl
  | cons edge rest ih => simp [readEdge_edgeStatement, ih]

end Dot

open Dot

/-- The text of the edges gives them back in order, with nothing but the carriage returns missing from their
labels. So edges that differ in more than these have different texts: an empty label and none at all, or a label
that looks like the rest of a statement and the statement itself. -/
theorem readEdges_edgeText (graph : Graph) :
    readEdges graph.edgeText = some (graph.edges.map Edge.withoutReturns) ∧
    ∀ other : Graph, other.edgeText = graph.edgeText ↔
      other.edges.map Edge.withoutReturns = graph.edges.map Edge.withoutReturns := by
  refine ⟨readEdges_eq graph, fun other => ⟨fun h => ?_, fun h => ?_⟩⟩
  · have hread := readEdges_eq other
    rw [h, readEdges_eq graph] at hread
    exact (Option.some.inj hread).symm
  · have hstatements (g : Graph) :
        edgeStatements g = (g.edges.map Edge.withoutReturns).map edgeStatement := by
      rw [edgeStatements, List.map_map]
      exact List.map_congr_left fun edge _ => (edgeStatement_withoutReturns edge).symm
    rw [edgeText, edgeText, hstatements other, hstatements graph, h]

end FlowPath.Graph
