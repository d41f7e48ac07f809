import FlowPath.Analysis
import FlowPath.Proofs.Json.Reading
import FlowPath.Proofs.Json.Writing
import FlowPath.Proofs.Number.Integers
import FlowPath.Value.Json

/-!
# Values as inputs

Values that are written as JSON come back as inputs (`inputs_written_eq_ok`), as long as their numbers are whole and
small enough to be written without a point, and not the negative zero (`Value.Plain`). The reader and the writer are
parameters: it is enough that the one writes texts of the values, and that the other reads such texts. How deep lists
may be nested is what is left of the levels that the reader allows.
-/

namespace FlowPath

namespace Value

/-- Values without fractions, and with lists that are nested at most so many levels deep. -/
inductive Plain : Nat → Value → Prop where
  | undefined {levels : Nat} : Plain levels .undefined
  | boolean {levels : Nat} {value : Bool} : Plain levels (.boolean value)
  | number {levels : Nat} {x : Float} {n : Int} (hwhole : Binary64.IsInt x n) (hsmall : n.natAbs < 2 ^ 53)
    (hzero : x ≠ -0) : Plain levels (.number x)
  | string {levels : Nat} {value : String} : Plain levels (.string value)
  | array {levels : Nat} {elements : List Value} (h : ∀ element ∈ elements, Plain levels element) :
    Plain (levels + 1) (.array elements)

theorem toJsonElements_eq (elements : List Value) (done : List Json) :
    toJsonElements elements done = done.reverse ++ elements.map toJson := by
  induction elements generalizing done with
  | nil => simp [toJsonElements]
  | cons element elements ih => simp [toJsonElements, ih]

theorem ofJsonElements_eq (elements : List Json) (done : List Value) :
    ofJsonElements elements done = done.reverse ++ elements.map ofJson := by
  induction elements generalizing done with
  | nil => simp [ofJsonElements]
  | cons element elements ih => simp [ofJsonElements, ih]

theorem toJson_array (elements : List Value) : toJson (.array elements) = .array (elements.map toJson) := by
  simp [toJson, toJsonElements_eq]

theorem numberJson_eq {x : Float} {n : Int} (h : Binary64.IsInt x n) (hsmall : n.natAbs < 2 ^ 53) :
    numberJson x = .number (.whole n) := by
  rw [numberJson, Binary64.toInt?_eq_some_iff.mpr h]
  exact if_pos hsmall

theorem map_ofJson_map_toJson {values : List Value} (h : ∀ value ∈ values, ofJson value.toJson = value) :
    (values.map toJson).map ofJson = values := by
  rw [List.map_map]
  exact (List.map_congr_left h).trans (List.map_id values)

theorem ofJson_toJson {levels : Nat} {value : Value} (h : Plain levels value) : ofJson value.toJson = value := by
  induction h with
  | undefined => simp [toJson, ofJson]
  | boolean => simp [toJson, ofJson]
  | number hwhole hsmall hzero =>
    have hback := hwhole.ofInt_eq hsmall hzero
    simp [toJson, numberJson_eq hwhole hsmall, ofJson, JsonNumber.toFloat, hback]
  | string => simp [toJson, ofJson]
  | array _ ih =>
    rw [toJson_array, ofJson, ofJsonElements_eq, map_ofJson_map_toJson ih]
    rfl

theorem exact_toJson {levels : Nat} {value : Value} (h : Plain levels value) : value.toJson.Exact := by
  induction h with
  | undefined =>
    rw [toJson]
    exact .null
  | boolean =>
    rw [toJson]
    exact .bool
  | number hwhole hsmall =>
    rw [toJson, numberJson_eq hwhole hsmall]
    have hlimit : (2 : Nat) ^ 53 = 0x20000000000000 := by decide
    exact .whole (by omega) (by omega)
  | string =>
    rw [toJson]
    exact .string
  | array _ ih =>
    rw [toJson_array]
    exact .array (List.forall_mem_map.mpr ih)

theorem nesting_toJson_le {levels : Nat} {value : Value} (h : Plain levels value) :
    value.toJson.nesting ≤ levels := by
  induction h with
  | undefined | boolean | string => simp [toJson, Json.nesting]
  | number hwhole hsmall => simp [toJson, numberJson_eq hwhole hsmall, Json.nesting]
  | array _ ih =>
    rw [toJson_array]
    exact Json.nesting_array_le_iff.mpr ⟨_, rfl, List.forall_mem_map.mpr ih⟩

end Value

namespace Analysis

section

variable {read : ListReader} {write : Json → String} (hread : Json.ReadsLists read) (hwrite : Json.WritesTexts write)

include hread hwrite

/-- The brackets around the texts of the values make them a list, which takes a level. -/
theorem inputsOfText_written {values : List Value} (hplain : ∀ value ∈ values, value.Plain 126) :
    inputsOfText read (",".intercalate (values.map fun value => write value.toJson)) = .ok values := by
  have hexact : ∀ value ∈ values, value.toJson.Exact := fun value hmem => Value.exact_toJson (hplain value hmem)
  have htext : Json.IsText (.array (values.map Value.toJson))
      ("[" ++ ",".intercalate (values.map fun value => write value.toJson) ++ "]") := by
    have htexts : ∀ json ∈ values.map Value.toJson, Json.Spaced (Json.Spells json) (write json).toList :=
      List.forall_mem_map.mpr fun value hmem => hwrite _ (hexact value hmem)
    refine (congrArg (Json.Spaced _) ?_).mp (.of (.array (Json.container_intercalate htexts)))
    simp [String.toList_intercalate, Function.comp_def]
  have hlevels : (Json.array (values.map Value.toJson)).nesting ≤ 127 :=
    Json.nesting_array_le_iff.mpr
      ⟨126, rfl, List.forall_mem_map.mpr fun value hmem => Value.nesting_toJson_le (hplain value hmem)⟩
  have hback := Value.map_ofJson_map_toJson fun value hmem => Value.ofJson_toJson (hplain value hmem)
  rw [inputsOfText, hread _ _ (.array (List.forall_mem_map.mpr hexact)) hlevels htext, Except.map, hback]

/-- The list around the entries and the list of each entry take two levels. -/
theorem batchOfText_written {lists : List (List Value)} (hplain : ∀ values ∈ lists, ∀ value ∈ values, value.Plain 125) :
    batchOfText read (write (Value.array (lists.map .array)).toJson) = .ok lists := by
  have hentries : (Value.array (lists.map .array)).Plain 127 :=
    .array (List.forall_mem_map.mpr fun values hmem => .array (hplain values hmem))
  have hexact := Value.exact_toJson hentries
  have hlevels := Value.nesting_toJson_le hentries
  have htext := hwrite _ hexact
  rw [batchOfText]
  generalize write (Value.array (lists.map .array)).toJson = text at htext
  rw [Value.toJson_array] at hexact hlevels htext
  have hback : ∀ values ∈ lists, inputsOfEntry (Value.array values).toJson = values := by
    intro values hmem
    rw [Value.toJson_array, inputsOfEntry]
    exact Value.map_ofJson_map_toJson fun value hvalue => Value.ofJson_toJson (hplain values hmem value hvalue)
  rw [hread _ _ hexact hlevels htext, Except.map, List.map_map, List.map_map]
  exact congrArg _ ((List.map_congr_left hback).trans (List.map_id lists))

end

/-- Plain values come back from what is written for them, whatever reader and writer of JSON are at work: as inputs
when the texts are joined by commas, and as the inputs of many runs when lists of them are written as one list. -/
theorem inputs_written_eq_ok {read : ListReader} {write : Json → String} (hread : Json.ReadsLists read)
    (hwrite : Json.WritesTexts write) :
    (∀ values : List Value, (∀ value ∈ values, value.Plain 126) →
      inputsOfText read (",".intercalate (values.map fun value => write value.toJson)) = .ok values) ∧
    ∀ lists : List (List Value), (∀ values ∈ lists, ∀ value ∈ values, value.Plain 125) →
      batchOfText read (write (Value.array (lists.map .array)).toJson) = .ok lists :=
  ⟨fun _ hplain => inputsOfText_written hread hwrite hplain, fun _ hplain => batchOfText_written hread hwrite hplain⟩

/-- Values of every kind, with the largest number and with characters that have to be escaped. -/
def mixedValues : List Value :=
  [.undefined, .boolean true, .number (Binary64.ofInt (-0x1fffffffffffff)), .string "a\"\\\n\x01é",
    .array [.array [], .number (Binary64.ofInt 7)]]

theorem plain_mixedValues (levels : Nat) : ∀ value ∈ mixedValues, value.Plain (levels + 2) := by
  have hlarge : ∀ {levels}, Value.Plain levels (.number (Binary64.ofInt (-0x1fffffffffffff))) :=
    .number (n := -0x1fffffffffffff) (Binary64.toInt?_eq_some_iff.mp (by decide +kernel)) (by decide)
      fun h => absurd (congrArg Float.toBits h) (by decide +kernel)
  have hsmall : ∀ {levels}, Value.Plain levels (.number (Binary64.ofInt 7)) :=
    .number (n := 7) (Binary64.toInt?_eq_some_iff.mp (by decide +kernel)) (by decide)
      fun h => absurd (congrArg Float.toBits h) (by decide +kernel)
  have hempty : Value.Plain (levels + 1) (.array []) := .array (by simp)
  simp only [mixedValues, List.forall_mem_cons]
  exact ⟨.undefined, .boolean, hlarge, .string, .array (by simp [hempty, hsmall]), by simp⟩

/-- The reader and the writer of this library, which writes the values without blanks or over many lines. -/
theorem inputs_written_mixedValues :
    Json.ReadsLists Json.parseList ∧ Json.WritesTexts (Json.render .compact) ∧ Json.WritesTexts (Json.render .pretty) ∧
    (∀ value ∈ mixedValues, value.Plain 126) ∧
    inputsOfText Json.parseList (",".intercalate (mixedValues.map fun value => Json.render .compact value.toJson)) =
      .ok mixedValues ∧
    (∀ values ∈ [mixedValues, []], ∀ value ∈ values, value.Plain 125) ∧
    batchOfText Json.parseList (Json.render .pretty (Value.array ([mixedValues, []].map .array)).toJson) =
      .ok [mixedValues, []] := by
  have hread := Json.readsLists_parseList
  have hcompact := Json.writesTexts_render .compact
  have hpretty := Json.writesTexts_render .pretty
  have hinputs := plain_mixedValues 124
  have hbatch : ∀ values ∈ [mixedValues, []], ∀ value ∈ values, value.Plain 125 := by
    simpa using plain_mixedValues 123
  exact ⟨hread, hcompact, hpretty, hinputs, (inputs_written_eq_ok hread hcompact).1 _ hinputs, hbatch,
    (inputs_written_eq_ok hread hpretty).2 _ hbatch⟩

end Analysis

end FlowPath
