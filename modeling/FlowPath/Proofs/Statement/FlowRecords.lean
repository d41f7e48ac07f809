import FlowPath.Proofs.Json.Reading
import FlowPath.Statement.FlowJson
import Mathlib.Data.List.Nodup

/-!
# Records in JSON

When a JSON value holds the record of a statement (`FlowRecord.Holds`), and with it what is asked of a reader of
records, whichever it is (`ReadsRecords`): members may come in any order, a field may be missing or `null` but must not
come twice, and members that are no fields are passed over. The reader of this library is one (`readsRecords_parse`):
it takes the record off each text of the value, as long as the containers fit in the levels that it is given
(`reads_holds`).
-/

namespace FlowPath.FlowRecord

open Json (Reader Reads ReadsMember Spells SpellsMember Container)

/-! ## The format -/

/-- The values of the members of the given name. -/
def valuesOf (name : String) (members : List (String × Json)) : List Json :=
  (members.filter fun member => member.1 == name).map Prod.snd

/-- The fields that hold a text. -/
inductive TextField where
  | type
  | subType
  | name
  | key

namespace TextField

def label : TextField → String
  | .type => "type"
  | .subType => "subType"
  | .name => "name"
  | .key => "key"

def get : TextField → FlowRecord → Option String
  | .type => FlowRecord.type
  | .subType => FlowRecord.subType
  | .name => FlowRecord.name
  | .key => FlowRecord.key

def set : TextField → FlowRecord → Option String → FlowRecord
  | .type, record, value => { record with type := value }
  | .subType, record, value => { record with subType := value }
  | .name, record, value => { record with name := value }
  | .key, record, value => { record with key := value }

end TextField

/-- The names of the fields. -/
def labels : List String := ["type", "subType", "name", "key", "body"]

/-- The text of a field, from the values of the members that have its name. -/
inductive HoldsText : List Json → Option String → Prop where
  | missing : HoldsText [] none
  | null : HoldsText [.null] none
  | text {value : String} : HoldsText [.string value] (some value)

/-- The children, from the values of the members that have their name, where `P` says what holds a child. -/
inductive HoldsBody (P : Json → FlowRecord → Prop) : List Json → Option (List FlowRecord) → Prop where
  | missing : HoldsBody P [] none
  | null : HoldsBody P [.null] none
  | children {elements : List Json} {records : List FlowRecord} (h : List.Forall₂ P elements records) :
    HoldsBody P [.array elements] (some records)

/-- The value holds the record. -/
inductive Holds : Json → FlowRecord → Prop where
  | object {members : List (String × Json)} {record : FlowRecord}
    (htexts : ∀ field : TextField, HoldsText (valuesOf field.label members) (field.get record))
    (hbody : HoldsBody Holds (valuesOf "body" members) record.body) : Holds (.object members) record

/-- The reader takes a record off each text of a value that holds it, if at most 127 containers stand inside each
other. -/
def ReadsRecords (read : String → Except JsonError FlowRecord) : Prop :=
  ∀ (json : Json) (record : FlowRecord) (text : String), Holds json record → json.nesting ≤ 127 →
    Json.IsText json text → read text = .ok record

/-! ## Fields -/

theorem mem_valuesOf {members : List (String × Json)} {member : String × Json} (h : member ∈ members) :
    member.2 ∈ valuesOf member.1 members :=
  List.mem_map.mpr ⟨member, List.mem_filter.mpr ⟨h, beq_self_eq_true _⟩, rfl⟩

theorem valuesOf_eq_nil_iff {name : String} {members : List (String × Json)} :
    valuesOf name members = [] ↔ name ∉ members.map Prod.fst := by
  simp only [valuesOf, List.map_eq_nil_iff, List.filter_eq_nil_iff, beq_iff_eq, List.mem_map, not_exists, not_and]

theorem length_valuesOf (name : String) (members : List (String × Json)) :
    (valuesOf name members).length = (members.map Prod.fst).count name := by
  rw [valuesOf, List.length_map, ← List.countP_eq_length_filter, List.count, List.countP_map]
  rfl

theorem label_or (name : String) : (∃ field : TextField, name = field.label) ∨ name = "body" ∨ name ∉ labels := by
  by_cases h : name ∈ labels
  · simp only [labels, List.mem_cons, List.not_mem_nil, or_false] at h
    rcases h with rfl | rfl | rfl | rfl | rfl
    · exact .inl ⟨.type, rfl⟩
    · exact .inl ⟨.subType, rfl⟩
    · exact .inl ⟨.name, rfl⟩
    · exact .inl ⟨.key, rfl⟩
    · exact .inr (.inl rfl)
  · exact .inr (.inr h)

theorem eq_of_fields {record other : FlowRecord} (htexts : ∀ field : TextField, field.get record = field.get other)
    (hbody : record.body = other.body) : record = other := by
  obtain ⟨type, subType, name, key, body⟩ := record
  obtain ⟨_, _, _, _, _⟩ := other
  obtain rfl : type = _ := htexts .type
  obtain rfl : subType = _ := htexts .subType
  obtain rfl : name = _ := htexts .name
  obtain rfl : key = _ := htexts .key
  obtain rfl : body = _ := hbody
  rfl

/-- Takes the field of the given name over from another record. -/
def adopt (source record : FlowRecord) (name : String) : FlowRecord :=
  if name = "type" then { record with type := source.type }
  else if name = "subType" then { record with subType := source.subType }
  else if name = "name" then { record with name := source.name }
  else if name = "key" then { record with key := source.key }
  else if name = "body" then { record with body := source.body }
  else record

theorem adopt_label (source record : FlowRecord) (field : TextField) :
    adopt source record field.label = field.set record (field.get source) := by
  cases field <;> rfl

theorem adopt_unknown {name : String} (h : name ∉ labels) (source record : FlowRecord) :
    adopt source record name = record := by
  simp only [labels, List.mem_cons, List.not_mem_nil, or_false, not_or] at h
  simp [adopt, h]

theorem get_adopt (source record : FlowRecord) (name : String) (field : TextField) :
    field.get (adopt source record name) = if name = field.label then field.get source else field.get record := by
  unfold adopt
  split_ifs <;> cases field <;> simp_all [TextField.get, TextField.label]

theorem body_adopt (source record : FlowRecord) (name : String) :
    (adopt source record name).body = if name = "body" then source.body else record.body := by
  unfold adopt
  split_ifs <;> simp_all

/-- A record is the same as what was taken over from it, if nothing of it was left behind. -/
theorem foldl_adopt {source : FlowRecord} {members : List (String × Json)}
    (htexts : ∀ field : TextField, valuesOf field.label members = [] → field.get source = none)
    (hbody : valuesOf "body" members = [] → source.body = none) :
    members.foldl (fun record member => adopt source record member.1) {} = source := by
  have hfold : ∀ start : FlowRecord,
      (∀ field : TextField, field.label ∉ members.map Prod.fst → field.get start = field.get source) →
      ("body" ∉ members.map Prod.fst → start.body = source.body) →
        members.foldl (fun record member => adopt source record member.1) start = source := by
    clear htexts hbody
    induction members with
    | nil => exact fun start htexts hbody => eq_of_fields (fun field => htexts field nofun) (hbody nofun)
    | cons member members ih =>
      intro start htexts hbody
      refine ih _ (fun field hmem => ?_) fun hmem => ?_
      · rw [get_adopt]
        split
        · rfl
        · rename_i hne
          exact htexts field (List.not_mem_cons_of_ne_of_not_mem (Ne.symm hne) hmem)
      · rw [body_adopt]
        split
        · rfl
        · rename_i hne
          exact hbody (List.not_mem_cons_of_ne_of_not_mem (Ne.symm hne) hmem)
  refine hfold {} (fun field hmem => ?_) fun hmem => (hbody (valuesOf_eq_nil_iff.mpr hmem)).symm
  rw [htexts field (valuesOf_eq_nil_iff.mpr hmem)]
  cases field <;> rfl

theorem HoldsText.eq_none {value : Option String} {values : List Json} (h : HoldsText values value)
    (hnil : values = []) : value = none := by
  subst hnil
  cases h
  rfl

theorem HoldsText.length_le {value : Option String} {values : List Json} (h : HoldsText values value) :
    values.length ≤ 1 := by
  cases h <;> simp

theorem HoldsText.perm {value : Option String} {values others : List Json} (h : HoldsText values value)
    (hperm : others.Perm values) : HoldsText others value := by
  cases h with
  | missing => exact hperm.eq_nil ▸ .missing
  | null => exact hperm.eq_singleton ▸ .null
  | text => exact hperm.eq_singleton ▸ .text

section Body

variable {P : Json → FlowRecord → Prop} {values : List Json} {body : Option (List FlowRecord)}

theorem HoldsBody.eq_none (h : HoldsBody P values body) (hnil : values = []) : body = none := by
  subst hnil
  cases h
  rfl

theorem HoldsBody.length_le (h : HoldsBody P values body) : values.length ≤ 1 := by
  cases h <;> simp

theorem HoldsBody.perm {others : List Json} (h : HoldsBody P values body) (hperm : others.Perm values) :
    HoldsBody P others body := by
  cases h with
  | missing => exact hperm.eq_nil ▸ .missing
  | null => exact hperm.eq_singleton ▸ .null
  | children hchildren => exact hperm.eq_singleton ▸ .children hchildren

end Body

/-! ## Reading -/

section Reading

variable {body : Reader (List FlowRecord)}

theorem find?_label (field : TextField) :
    (fields body).find? (fun other => other.name == field.label) = some (textField field.label field.set) := by
  cases field <;> rfl

theorem find?_body :
    (fields body).find? (fun other => other.name == "body") =
      some ⟨"body", fun record text => do
        let (value, text) ← Json.readOptional body text
        return ({ record with body := value }, text)⟩ :=
  rfl

theorem find?_unknown {name : String} (h : name ∉ labels) :
    (fields body).find? (fun other => other.name == name) = none := by
  simp only [labels, List.mem_cons, List.not_mem_nil, or_false, not_or] at h
  obtain ⟨htype, hsubType, hname, hkey, hbody⟩ := h
  simp [fields, textField, Ne.symm htype, Ne.symm hsubType, Ne.symm hname, Ne.symm hkey, Ne.symm hbody]

/-- The text of a field is read off the member of its name. -/
theorem readOptional_text {values : List Json} {value : Option String} (h : HoldsText values value) {json : Json}
    (hmem : json ∈ values) {text : List Char} (hspells : Spells json text) :
    Reads (Json.readOptional Json.readText) text value := by
  cases h with
  | missing => cases hmem
  | null =>
    obtain rfl := List.mem_singleton.mp hmem
    cases hspells
    exact Json.readOptional_null
  | text =>
    obtain rfl := List.mem_singleton.mp hmem
    obtain ⟨⟩ | ⟨⟩ | ⟨⟩ | ⟨⟩ | hstring := hspells
    have hread := Json.readText_spells hstring
    obtain ⟨-⟩ := hstring
    exact Json.readOptional_of_reads hread (by decide)

/-- The children are read off the member of their name, given that lists of children are. -/
theorem readOptional_body {P : Json → FlowRecord → Prop} {values : List Json} {children : Option (List FlowRecord)}
    (h : HoldsBody P values children) {json : Json} (hmem : json ∈ values) {text : List Char}
    (hspells : Spells json text)
    (hlist : ∀ elements records, json = .array elements → List.Forall₂ P elements records →
      Container Spells '[' ']' elements text → Reads body text records) :
    Reads (Json.readOptional body) text children := by
  cases h with
  | missing => cases hmem
  | null =>
    obtain rfl := List.mem_singleton.mp hmem
    cases hspells
    exact Json.readOptional_null
  | children hchildren =>
    obtain rfl := List.mem_singleton.mp hmem
    obtain ⟨⟩ | ⟨⟩ | ⟨⟩ | ⟨⟩ | ⟨⟩ | helements := hspells
    have hread := hlist _ _ rfl hchildren helements
    obtain ⟨inner, rfl, -⟩ := helements.exists_inside
    exact Json.readOptional_of_reads hread (by decide)

variable {members : List (String × Json)} {record : FlowRecord}
  (htexts : ∀ field : TextField, HoldsText (valuesOf field.label members) (field.get record))
  (hbody : HoldsBody Holds (valuesOf "body" members) record.body)

include htexts hbody

/-- No field comes twice. -/
theorem nodup_knownNames : (Json.knownNames (fields body) (members.map Prod.fst)).Nodup := by
  rw [List.nodup_iff_count_le_one]
  intro name
  rcases label_or name with ⟨field, rfl⟩ | rfl | hunknown
  · exact Nat.le_trans (List.filter_sublist.count_le _) (length_valuesOf .. ▸ (htexts field).length_le)
  · exact Nat.le_trans (List.filter_sublist.count_le _) (length_valuesOf .. ▸ hbody.length_le)
  · rw [List.count_eq_zero_of_not_mem]
    · exact Nat.zero_le 1
    · simp [Json.knownNames, find?_unknown hunknown]

/-- Each member gives its field of the record. -/
theorem readsMember {member : String × Json} (hmem : member ∈ members)
    (hlist : ∀ elements records, member = ("body", .array elements) → List.Forall₂ Holds elements records →
      ∀ {part}, Container Spells '[' ']' elements part → Reads body part records)
    {text : List Char} (h : SpellsMember Spells member text) :
    ReadsMember (fields body) Prod.fst (fun other member => adopt record other member.1) member text := by
  have hvalue := mem_valuesOf hmem
  obtain ⟨hname, hbefore, hafter, hspells⟩ := h
  rename_i name value _ _ _ _
  refine .colon hname hbefore hafter ?_
  rcases label_or name with ⟨field, rfl⟩ | rfl | hunknown
  · rw [find?_label]
    intro other
    have hread := (readOptional_text (htexts field) hvalue hspells).map (field.set other)
    rwa [← adopt_label record other field] at hread
  · rw [find?_body]
    intro other
    have hread := readOptional_body hbody hvalue hspells fun elements records hjson hchildren =>
      hlist elements records (congrArg (Prod.mk "body") hjson) hchildren
    exact hread.map fun value => { other with body := value }
  · rw [find?_unknown hunknown]
    exact ⟨hspells.isValue, adopt_unknown hunknown record⟩

/-- One level of the tree, given that the children can be read. -/
theorem reads_object {text : List Char} (h : Container (SpellsMember Spells) '\x7b' '\x7d' members text)
    (hlist : ∀ elements records, ("body", Json.array elements) ∈ members → List.Forall₂ Holds elements records →
      ∀ {part}, Container Spells '[' ']' elements part → Reads body part records) :
    Reads (Json.readRecord (fields body) {}) text record := by
  have hmembers : Container (ReadsMember (fields body) Prod.fst fun other member => adopt record other member.1)
      '\x7b' '\x7d' members text :=
    h.imp fun member hmem part _ hpart =>
      readsMember htexts hbody hmem (fun elements records hmember => hlist elements records (hmember ▸ hmem)) hpart
  have hread := Json.readRecord_container hmembers (nodup_knownNames htexts hbody) {}
  rwa [foldl_adopt (fun field => (htexts field).eq_none) hbody.eq_none] at hread

end Reading

theorem reads_children {child : Reader FlowRecord} {elements : List Json} {records : List FlowRecord}
    (h : List.Forall₂ Holds elements records) {text : List Char} (hspells : Container Spells '[' ']' elements text)
    (hchild : ∀ element ∈ elements, ∀ record, Holds element record → ∀ part, Spells element part →
      Reads child part record) : Reads (Json.readListOf child) text records := by
  have hpairs : Container (fun pair part => Reads child part (Prod.snd pair)) '[' ']' (elements.zip records) text :=
    (hspells.zip h.length_eq).imp fun pair hmem part _ hpart =>
      hchild pair.1 (List.of_mem_zip hmem).1 pair.2 (List.forall₂_zip h hmem) part hpart
  have hread := Json.readListOf_container hpairs
  rwa [List.map_snd_zip (Nat.le_of_eq h.length_eq.symm)] at hread

/-- Each level of the tree takes two levels of containers, and the last one needs no list. -/
theorem reads_holds {levels : Nat} {json : Json} {record : FlowRecord} {text : List Char} (h : Holds json record)
    (hspells : Spells json text) (hlevels : json.nesting ≤ levels) : Reads (read levels) text record := by
  induction levels using Nat.strongRecOn generalizing json record text with
  | ind levels ih =>
    obtain ⟨htexts, hbody⟩ := h
    obtain ⟨⟩ | ⟨⟩ | ⟨⟩ | ⟨⟩ | ⟨⟩ | ⟨⟩ | hmembers := hspells
    obtain ⟨levels, rfl, hinside⟩ := Json.nesting_object_le_iff.mp hlevels
    cases levels with
    | zero =>
      refine reads_object htexts hbody hmembers fun elements records hmem => ?_
      have hflat := hinside _ hmem
      simp [Json.nesting] at hflat
    | succ levels =>
      refine reads_object htexts hbody hmembers fun elements records hmem hchildren part hpart => ?_
      obtain ⟨_, heq, hflat⟩ := Json.nesting_array_le_iff.mp (hinside _ hmem)
      obtain rfl := Nat.succ.inj heq
      refine reads_children hchildren hpart fun element hmem child hchild part hpart => ?_
      exact ih _ (by omega) hchild hpart (hflat element hmem)

theorem readsRecords_parse : ReadsRecords parse := by
  intro json record text h hlevels htext
  exact Json.readAll_of_spaced (htext.imp fun hspells => reads_holds h hspells hlevels)

end FlowPath.FlowRecord
