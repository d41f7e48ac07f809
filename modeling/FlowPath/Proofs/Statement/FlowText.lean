import FlowPath.Proofs.Json.Writing
import FlowPath.Proofs.Path.Depth
import FlowPath.Proofs.Statement.FlowRecords
import FlowPath.Proofs.Statement.Marks

/-!
# The texts of a tree of statements

How a tree of statements is written as JSON (`Encodes`): an object for each statement, with the types of its kind, its
text, its role and its children. The members may come in any order, and there may be others. Such a value holds a
record of the tree without its marks (`exists_holds`), and nests two containers for each level of the tree
(`nesting_le`). So any reader of records gives a tree of at most 64 levels back from each of its texts
(`ofText_flowText`).
-/

namespace FlowPath.Statement

open FlowPath.FlowRecord (Holds HoldsText HoldsBody TextField valuesOf)
open FlowPath.Json (Spells SpellsMember Container IsText)

/-! ## The format -/

/-- The types that stand for a kind. -/
inductive Listed : Kind → String → Option String → Prop where
  | function : Listed .function "Function" (some "FunctionDeclaration")
  | declarator {subType : Option String} : Listed .assignment "VariableDeclarator" subType
  | assignment {subType : Option String} : Listed .assignment "AssignmentExpression" subType
  | conditional : Listed .conditional "Conditional" (some "IfStatement")
  | loop : Listed .loop "Loop" (some "WhileStatement")
  | returning {subType : Option String} : Listed .returning "ReturnStatement" subType

/-- The types tell the kind: they are listed for it, or they are listed for no kind. -/
inductive TellsKind : Kind → Option String → Option String → Prop where
  | listed {kind : Kind} {type : String} {subType : Option String} (h : Listed kind type subType) :
    TellsKind kind (some type) subType
  | other {type subType : Option String} (h : ∀ t ∈ type, ∀ kind, ¬ Listed kind t subType) :
    TellsKind .other type subType

/-- The key tells the role; a statement without a role may have any other key. -/
inductive TellsRole : Option Role → Option String → Prop where
  | label (role : Role) : TellsRole (some role) (some role.label)
  | absent : TellsRole none none
  | other {key : String} (h : ∀ role : Role, key ≠ role.label) : TellsRole none (some key)

/-- An empty list of children is left out. -/
def bodyMember : List Json → List (String × Json)
  | [] => []
  | child :: children => [("body", .array (child :: children))]

/-- The members that tell about a statement, with the given types, key and children. -/
def members (s : Statement) (type subType key : Option String) (children : List Json) : List (String × Json) :=
  type.toList.map (fun type => ("type", .string type)) ++
    subType.toList.map (fun subType => ("subType", .string subType)) ++
    ("name", .string s.text) :: key.toList.map (fun key => ("key", .string key)) ++ bodyMember children

/-- The value is the tree in JSON, where `P` says what unknown members may hold. -/
inductive Encodes (P : Json → Prop) : Statement → Json → Prop where
  | object {s : Statement} {type subType key : Option String} {children : List Json}
    {unknown all : List (String × Json)} (hkind : TellsKind s.kind type subType) (hrole : TellsRole s.role key)
    (hchildren : List.Forall₂ (Encodes P) s.children children)
    (hunknown : ∀ member ∈ unknown, member.1 ∉ FlowRecord.labels ∧ P member.2)
    (horder : all.Perm (s.members type subType key children ++ unknown)) : Encodes P s (.object all)

/-- The value is no container. -/
def IsFlat (json : Json) : Prop := json.nesting = 0

/-! ## Kinds and roles -/

theorem TellsKind.ofTypes_eq {kind : Kind} {type subType : Option String} (h : TellsKind kind type subType) :
    Kind.ofTypes (type.getD "") subType = kind := by
  cases h with
  | listed h =>
    cases h <;> simp [Kind.ofTypes]
  | other h =>
    cases type with
    | none => simp [Kind.ofTypes]
    | some type =>
      have hnot := h type rfl
      rw [Option.getD_some, Kind.ofTypes]
      split_ifs with hfunction hassignment hconditional hloop hreturning
      · obtain ⟨rfl, rfl⟩ := hfunction
        exact absurd .function (hnot _)
      · rcases hassignment with rfl | rfl
        · exact absurd .declarator (hnot _)
        · exact absurd .assignment (hnot _)
      · obtain ⟨rfl, rfl⟩ := hconditional
        exact absurd .conditional (hnot _)
      · obtain ⟨rfl, rfl⟩ := hloop
        exact absurd .loop (hnot _)
      · subst hreturning
        exact absurd .returning (hnot _)
      · rfl

theorem TellsRole.ofLabel?_eq {role : Option Role} {key : Option String} (h : TellsRole role key) :
    key.bind Role.ofLabel? = role := by
  cases h with
  | label role => cases role <;> rfl
  | absent => rfl
  | other h =>
    rw [Option.bind_some, Role.ofLabel?, List.find?_eq_none]
    intro role _
    simpa using (h role).symm

/-! ## Records -/

theorem valuesOf_append (name : String) (first second : List (String × Json)) :
    valuesOf name (first ++ second) = valuesOf name first ++ valuesOf name second := by
  simp [valuesOf]

theorem valuesOf_unknown {name : String} (hname : name ∈ FlowRecord.labels) {unknown : List (String × Json)}
    (h : ∀ member ∈ unknown, member.1 ∉ FlowRecord.labels) : valuesOf name unknown = [] := by
  rw [FlowRecord.valuesOf_eq_nil_iff]
  intro hmem
  obtain ⟨member, hmember, rfl⟩ := List.mem_map.mp hmem
  exact h member hmember hname

theorem label_mem_labels (field : TextField) : field.label ∈ FlowRecord.labels := by
  cases field <;> decide

section Members

variable {s : Statement} {type subType key : Option String} {children : List Json} {unknown all : List (String × Json)}
  (horder : all.Perm (s.members type subType key children ++ unknown))

include horder

/-- Under the name of a field, the order of the members does not matter. -/
theorem valuesOf_perm {name : String} (hname : name ∈ FlowRecord.labels)
    (hunknown : ∀ member ∈ unknown, member.1 ∉ FlowRecord.labels) :
    (valuesOf name all).Perm (valuesOf name (s.members type subType key children)) := by
  have hperm : (valuesOf name all).Perm (valuesOf name (s.members type subType key children ++ unknown)) :=
    (horder.filter _).map _
  rwa [valuesOf_append, valuesOf_unknown hname hunknown, List.append_nil] at hperm

theorem mem_all {member : String × Json} (h : member ∈ all) :
    member.2.nesting = 0 ∨ children ≠ [] ∧ member = ("body", .array children) ∨ member ∈ unknown := by
  have hmem := horder.mem_iff.mp h
  simp only [members, List.mem_append, List.mem_cons, List.mem_map] at hmem
  rcases hmem with (((⟨_, -, rfl⟩ | ⟨_, -, rfl⟩) | rfl | ⟨_, -, rfl⟩) | hbody) | hunknown
  · exact .inl (by simp [Json.nesting])
  · exact .inl (by simp [Json.nesting])
  · exact .inl (by simp [Json.nesting])
  · exact .inl (by simp [Json.nesting])
  · cases children with
    | nil => cases hbody
    | cons child children => exact .inr (.inl ⟨List.cons_ne_nil child children, List.mem_singleton.mp hbody⟩)
  · exact .inr (.inr hunknown)

end Members

/-- The record of a statement with the given types, key and children. -/
def record (s : Statement) (type subType key : Option String) (children : List FlowRecord) : FlowRecord :=
  { type, subType, name := some s.text, key, body := if children.isEmpty then none else some children }

theorem holdsText_members (s : Statement) (type subType key : Option String) (children : List Json)
    (records : List FlowRecord) (field : TextField) :
    HoldsText (valuesOf field.label (s.members type subType key children))
      (field.get (s.record type subType key records)) := by
  cases field <;> cases type <;> cases subType <;> cases key <;> cases children <;> constructor

theorem holdsBody_members (s : Statement) (type subType key : Option String) {children : List Json}
    {records : List FlowRecord} (h : List.Forall₂ Holds children records) :
    HoldsBody Holds (valuesOf "body" (s.members type subType key children))
      (s.record type subType key records).body := by
  cases h with
  | nil => cases type <;> cases subType <;> cases key <;> exact .missing
  | cons hchild hchildren =>
    cases type <;> cases subType <;> cases key <;> exact .children (.cons hchild hchildren)

theorem statement_record {s : Statement} {type subType key : Option String} (hkind : TellsKind s.kind type subType)
    (hrole : TellsRole s.role key) {records : List FlowRecord}
    (hchildren : FlowRecord.statements records = s.children.map unmarked) :
    (s.record type subType key records).statement = s.unmarked := by
  rw [record, FlowRecord.statement, hkind.ofTypes_eq, hrole.ofLabel?_eq, unmarked_eq, ← hchildren]
  cases records <;> rfl

/-- The values of the children hold records, if each of them does. -/
theorem exists_records {P : Json → Prop} {statements : List Statement} {children : List Json}
    (h : List.Forall₂ (Encodes P) statements children)
    (hholds : ∀ s ∈ statements, ∀ json, Encodes P s json →
      ∃ record, Holds json record ∧ record.statement = s.unmarked) :
    ∃ records, List.Forall₂ Holds children records ∧ FlowRecord.statements records = statements.map unmarked := by
  induction h with
  | nil => exact ⟨[], .nil, rfl⟩
  | cons hfirst _ ih =>
    obtain ⟨hhead, htail⟩ := List.forall_mem_cons.mp hholds
    obtain ⟨record, hrecord, hstatement⟩ := hhead _ hfirst
    obtain ⟨records, hrecords, hstatements⟩ := ih htail
    exact ⟨record :: records, .cons hrecord hrecords, by rw [FlowRecord.statements, hstatement, hstatements]; rfl⟩

/-- A tree in JSON holds a record of the tree without its marks. -/
theorem exists_holds {P : Json → Prop} {s : Statement} {json : Json} (h : Encodes P s json) :
    ∃ record, Holds json record ∧ record.statement = s.unmarked := by
  induction s generalizing json with
  | node kind text role onPath children ih =>
    obtain ⟨hkind, hrole, hchildren, hunknown, horder⟩ := h
    obtain ⟨records, hrecords, hstatements⟩ := exists_records hchildren fun s hs json => ih s hs
    have hnames := fun member hmember => (hunknown member hmember).1
    refine ⟨_, .object (fun field => ?_) ?_, statement_record hkind hrole hstatements⟩
    · exact (holdsText_members _ _ _ _ _ records field).perm (valuesOf_perm horder (label_mem_labels field) hnames)
    · exact (holdsBody_members _ _ _ _ hrecords).perm (valuesOf_perm horder (by decide) hnames)

/-! ## Levels -/

theorem height_le_heightAll {s : Statement} {statements : List Statement} (h : s ∈ statements) :
    s.height ≤ heightAll statements := by
  induction statements with
  | nil => cases h
  | cons t rest ih =>
    rw [heightAll]
    rcases List.mem_cons.mp h with rfl | hrest
    · exact Nat.le_max_left ..
    · exact Nat.le_trans (ih hrest) (Nat.le_max_right ..)

theorem height_eq (s : Statement) : s.height = 1 + heightAll s.children := by
  cases s
  rw [height]

theorem height_lt {s child : Statement} (h : child ∈ s.children) : child.height < s.height := by
  have hle := height_le_heightAll h
  rw [height_eq s]
  omega

theorem exists_mem_of_mem {P : Json → Prop} {statements : List Statement} {children : List Json}
    (h : List.Forall₂ (Encodes P) statements children) {json : Json} (hjson : json ∈ children) :
    ∃ s ∈ statements, Encodes P s json := by
  induction h with
  | nil => cases hjson
  | cons hfirst _ ih =>
    rcases List.mem_cons.mp hjson with rfl | hrest
    · exact ⟨_, List.mem_cons_self, hfirst⟩
    · obtain ⟨s, hs, hencodes⟩ := ih hrest
      exact ⟨s, List.mem_cons_of_mem _ hs, hencodes⟩

/-- Each level of the tree takes two levels of containers, and the last one needs no list. -/
theorem nesting_le {n : Nat} {s : Statement} {json : Json} (h : Encodes IsFlat s json) (hheight : s.height ≤ n + 1) :
    json.nesting ≤ 2 * n + 1 := by
  induction n generalizing s json with
  | zero =>
    obtain ⟨-, -, hchildren, hunknown, horder⟩ := h
    refine Json.nesting_object_le_iff.mpr ⟨0, rfl, fun member hmem => ?_⟩
    rcases mem_all horder hmem with hflat | ⟨hne, -⟩ | hmem
    · exact Nat.le_of_eq hflat
    · obtain ⟨child, hchild⟩ := List.exists_mem_of_ne_nil _ hne
      obtain ⟨t, ht, -⟩ := exists_mem_of_mem hchildren hchild
      have hlow := height_lt ht
      rw [height_eq t] at hlow
      omega
    · exact Nat.le_of_eq (hunknown member hmem).2
  | succ n ih =>
    obtain ⟨-, -, hchildren, hunknown, horder⟩ := h
    refine Json.nesting_object_le_iff.mpr ⟨2 * (n + 1), rfl, fun member hmem => ?_⟩
    rcases mem_all horder hmem with hflat | ⟨-, rfl⟩ | hmem
    · exact hflat ▸ Nat.zero_le _
    · refine Json.nesting_array_le_iff.mpr ⟨2 * n + 1, rfl, fun child hchild => ?_⟩
      obtain ⟨t, ht, hencodes⟩ := exists_mem_of_mem hchildren hchild
      exact ih hencodes (Nat.le_of_lt_succ (Nat.lt_of_lt_of_le (height_lt ht) hheight))
    · exact (hunknown member hmem).2 ▸ Nat.zero_le _

/-! ## Every tree can be written -/

theorem exists_tellsKind (kind : Kind) : ∃ type subType, TellsKind kind type subType := by
  cases kind with
  | function => exact ⟨_, _, .listed .function⟩
  | assignment => exact ⟨_, none, .listed .declarator⟩
  | conditional => exact ⟨_, _, .listed .conditional⟩
  | loop => exact ⟨_, _, .listed .loop⟩
  | returning => exact ⟨_, none, .listed .returning⟩
  | other => exact ⟨none, none, .other (by rintro _ ⟨⟩)⟩

theorem exists_tellsRole (role : Option Role) : ∃ key, TellsRole role key := by
  cases role with
  | none => exact ⟨none, .absent⟩
  | some role => exact ⟨_, .label role⟩

/-- Without unknown members, and with the members in their usual order. -/
theorem exists_encodes (P : Json → Prop) (s : Statement) : ∃ json, Encodes P s json := by
  induction s with
  | node kind text role onPath children ih =>
    obtain ⟨type, subType, hkind⟩ := exists_tellsKind kind
    obtain ⟨key, hrole⟩ := exists_tellsRole role
    have hall : ∀ statements : List Statement, (∀ s ∈ statements, ∃ json, Encodes P s json) →
        ∃ jsons, List.Forall₂ (Encodes P) statements jsons := by
      intro statements
      induction statements with
      | nil => exact fun _ => ⟨[], .nil⟩
      | cons s rest ih =>
        intro h
        obtain ⟨⟨json, hjson⟩, hrest⟩ := List.forall_mem_cons.mp h
        obtain ⟨jsons, hjsons⟩ := ih hrest
        exact ⟨json :: jsons, .cons hjson hjsons⟩
    obtain ⟨jsons, hjsons⟩ := hall children ih
    have horder : (members ⟨kind, text, role, onPath, children⟩ type subType key jsons).Perm
        (members ⟨kind, text, role, onPath, children⟩ type subType key jsons ++ []) := by simp
    exact ⟨_, .object hkind hrole hjsons (List.forall_mem_nil _) horder⟩

/-- A tree of at most 64 levels can be written, and whatever reader of records is at work, the tree is read without its
marks off each of its texts: with flat values in the unknown members, and with any values there as long as at most 127
containers stand inside each other. -/
theorem ofText_flowText {read : String → Except JsonError FlowRecord} (hread : FlowRecord.ReadsRecords read)
    {s : Statement} (hheight : s.height ≤ 64) :
    (∃ json text, Encodes IsFlat s json ∧ IsText json text) ∧
    (∀ json text, Encodes IsFlat s json → IsText json text → ofText read text = .ok s.unmarked) ∧
    ∀ json text, Encodes (fun _ => True) s json → json.nesting ≤ 127 → IsText json text →
      ofText read text = .ok s.unmarked := by
  have hreads : ∀ {P json text}, Encodes P s json → json.nesting ≤ 127 → IsText json text →
      ofText read text = .ok s.unmarked := by
    intro P json text hencodes hlevels htext
    obtain ⟨record, hholds, hstatement⟩ := exists_holds hencodes
    rw [ofText, hread json record text hholds hlevels htext, Except.map, hstatement]
  refine ⟨?_, fun json text hencodes => hreads hencodes (nesting_le hencodes hheight), fun _ _ => hreads⟩
  obtain ⟨json, hencodes⟩ := exists_encodes IsFlat s
  obtain ⟨text, htext⟩ := Json.exists_spells json
  exact ⟨json, String.ofList text, hencodes, by rw [IsText, String.toList_ofList]; exact .of htext⟩

/-- A marked loop with a marked statement inside. -/
def markedLoop : Statement := ⟨.loop, "\"", none, true, [⟨.other, "b", some .body, true, []⟩]⟩

def markedLoopChild : Json := .object [("key", .string "body"), ("name", .string "b")]

/-- The members come in the opposite order, one of them is unknown, and the key of the loop is no role. -/
def markedLoopJson : Json :=
  .object [("x", .number (.whole 7)), ("body", .array [markedLoopChild]), ("key", .string "k"),
    ("name", .string "\""), ("subType", .string "WhileStatement"), ("type", .string "Loop")]

theorem encodes_markedLoop : Encodes IsFlat markedLoop markedLoopJson := by
  have hnone : TellsKind .other none none := .other (by rintro _ ⟨⟩)
  have hchild : Encodes IsFlat ⟨.other, "b", some .body, true, []⟩ markedLoopChild :=
    .object hnone (.label .body) .nil (List.forall_mem_nil _)
      (List.reverse_perm [("name", Json.string "b"), ("key", Json.string "body")])
  have hrole : TellsRole none (some "k") := .other (by rintro ⟨⟩ <;> decide)
  have hunknown : ∀ member ∈ [("x", Json.number (.whole 7))], member.1 ∉ FlowRecord.labels ∧ IsFlat member.2 := by
    rw [List.forall_mem_singleton]
    exact ⟨by decide, by rw [IsFlat, Json.nesting]⟩
  have horder := List.reverse_perm
    (markedLoop.members (some "Loop") (some "WhileStatement") (some "k") [markedLoopChild] ++
      [("x", Json.number (.whole 7))])
  exact .object (.listed .loop) hrole (.cons hchild .nil) hunknown horder

theorem exact_markedLoop : markedLoopJson.Exact := by
  have hchild : markedLoopChild.Exact := by
    refine .object (by decide) ?_
    simp only [List.forall_mem_cons]
    exact ⟨.string, .string, List.forall_mem_nil _⟩
  have hbody : (Json.array [markedLoopChild]).Exact := .array (List.forall_mem_singleton.mpr hchild)
  refine .object (by decide) ?_
  simp only [List.forall_mem_cons]
  exact ⟨.whole (by decide) (by decide), hbody, .string, .string, .string, .string, List.forall_mem_nil _⟩

/-- The reader of this library, on a text that is spread over many lines. -/
theorem ofText_flowText_markedLoop :
    FlowRecord.ReadsRecords FlowRecord.parse ∧ markedLoop.height ≤ 64 ∧ Encodes IsFlat markedLoop markedLoopJson ∧
    IsText markedLoopJson (Json.render .pretty markedLoopJson) ∧
    ofText FlowRecord.parse (Json.render .pretty markedLoopJson) = .ok markedLoop.unmarked := by
  have hread := FlowRecord.readsRecords_parse
  have hheight : markedLoop.height ≤ 64 := by decide
  have htext := Json.writesTexts_render .pretty markedLoopJson exact_markedLoop
  exact ⟨hread, hheight, encodes_markedLoop, htext,
    (ofText_flowText hread hheight).2.1 _ _ encodes_markedLoop htext⟩

end FlowPath.Statement
