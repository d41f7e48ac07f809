import FlowPath.Proofs.Json.Containers
import FlowPath.Proofs.Token.Pieces

/-!
# Reading values

The reader of this library takes a value off each of its texts (`reads_spells`), as long as the containers fit in the
levels that it is given, and so it reads lists as it should (`readsLists_parseList`). Where the value is not asked for,
every text of it can be skipped (`Spells.isValue`).
-/

namespace FlowPath.Json

variable {α : Type}

/-! ## Levels -/

theorem nestingAll_le_iff {elements : List Json} {n : Nat} :
    nestingAll elements ≤ n ↔ ∀ element ∈ elements, element.nesting ≤ n := by
  induction elements with
  | nil => simp [nestingAll]
  | cons element elements ih => simp [nestingAll, ih]

theorem nestingMembers_le_iff {members : List (String × Json)} {n : Nat} :
    nestingMembers members ≤ n ↔ ∀ member ∈ members, member.2.nesting ≤ n := by
  induction members with
  | nil => simp [nestingMembers]
  | cons member members ih => simp [nestingMembers, ih]

/-- A container takes a level. -/
theorem nesting_array_le_iff {elements : List Json} {n : Nat} :
    (Json.array elements).nesting ≤ n ↔ ∃ m, n = m + 1 ∧ ∀ element ∈ elements, element.nesting ≤ m := by
  rw [nesting]
  cases n with
  | zero => simp
  | succ n => simp [nestingAll_le_iff]

theorem nesting_object_le_iff {members : List (String × Json)} {n : Nat} :
    (Json.object members).nesting ≤ n ↔ ∃ m, n = m + 1 ∧ ∀ member ∈ members, member.2.nesting ≤ m := by
  rw [nesting]
  cases n with
  | zero => simp
  | succ n => simp [nestingMembers_le_iff]

theorem nesting_lt_array {elements : List Json} {element : Json} (h : element ∈ elements) :
    element.nesting < (Json.array elements).nesting := by
  rw [nesting, Nat.lt_succ_iff]
  exact nestingAll_le_iff.mp (Nat.le_refl _) element h

theorem nesting_lt_object {members : List (String × Json)} {member : String × Json} (h : member ∈ members) :
    member.2.nesting < (Json.object members).nesting := by
  rw [nesting, Nat.lt_succ_iff]
  exact nestingMembers_le_iff.mp (Nat.le_refl _) member h

/-! ## Numbers -/

/-- No number but zero has a zero in front. -/
theorem head?_toDigits {n : Nat} (hn : n ≠ 0) : (Nat.toDigits 10 n).head? ≠ some '0' := by
  induction n using Nat.strongRecOn with
  | ind n ih =>
    by_cases hlast : n < 10
    · have hall : ∀ i : Fin 10, i.val ≠ 0 → i.val.digitChar ≠ '0' := by decide
      rw [Nat.toDigits_of_lt_base hlast]
      simpa using hall ⟨n, hlast⟩ hn
    · rw [Nat.toDigits_of_base_le (by decide) (Nat.not_lt.mp hlast), List.head?_append_of_ne_nil _ Nat.toDigits_ne_nil]
      exact ih (n / 10) (by omega) (by omega)

theorem isWhole_toDigits (n : Nat) : IsWhole (Nat.toDigits 10 n) := by
  refine ⟨⟨Nat.toDigits_ne_nil, fun _ => Text.isDigit_of_mem_toDigits⟩, fun hhead => ?_⟩
  by_cases hn : n = 0
  · subst hn
    rfl
  · exact absurd hhead (head?_toDigits hn)

theorem signText_mem (n : Int) : signText n ∈ [[], ['-']] := by
  unfold signText
  split <;> simp

theorem isNumber_whole (n : Int) : IsNumber (signText n ++ Nat.toDigits 10 n.natAbs) := by
  simpa using IsNumber.parts (signText_mem n) (isWhole_toDigits n.natAbs) .none .none

section Whole

variable {n : Int} (hleast : -0x8000000000000000 ≤ n) (hmost : n < 0x10000000000000000)

include hleast hmost

/-- Below zero there is room for one number more than above. -/
theorem value_whole : Written.value ⟨decide (n < 0), Nat.toDigits 10 n.natAbs, none, none⟩ = .ok (.whole n) := by
  have hvalue : Decimal.valueOfDigits (Nat.toDigits 10 n.natAbs) = n.natAbs := Nat.ofDigitChars_ten_toDigits
  by_cases hn : n < 0
  · have hzero : n ≠ 0 := by omega
    have hlimit : n.natAbs < 0x8000000000000001 := by omega
    have hsigned : -(n.natAbs : Int) = n := by omega
    simp only [Written.value, hvalue, hn, hlimit, hsigned, decide_true, Option.isNone_none, Bool.true_and, if_true]
    simp [hzero]
  · have hlimit : n.natAbs < 0x10000000000000000 := by omega
    have hsigned : (n.natAbs : Int) = n := by omega
    simp only [Written.value, hvalue, hn, hlimit, hsigned, decide_true, decide_false, Option.isNone_none,
      Bool.false_and, Bool.not_false, Bool.and_true, Bool.false_eq_true, if_false, if_true]

theorem readNumber_whole {rest : List Char} (hrest : EndsValue rest) :
    readNumber (signText n ++ (Nat.toDigits 10 n.natAbs ++ rest)) = .ok (.whole n, rest) := by
  have hnegative : (signText n == ['-']) = decide (n < 0) := by
    unfold signText
    split <;> simp_all
  have hread : readWritten (signText n ++ (Nat.toDigits 10 n.natAbs ++ ([] ++ ([] ++ rest)))) = _ :=
    readWritten_parts (signText_mem n) (isWhole_toDigits n.natAbs) (fun c hc => (hrest.head c hc).1)
      (readFraction_eq_none fun c hc => (hrest.head c hc).2.1) (readExponent_eq_none hrest)
  rw [List.nil_append, List.nil_append, hnegative] at hread
  simp [readNumber, hread, value_whole hleast hmost, bind, Except.bind, pure, Except.pure]

theorem readScalar_whole :
    ReadsScalar readScalar (signText n ++ Nat.toDigits 10 n.natAbs) (.number (.whole n)) := by
  obtain ⟨c, tail, htext, hc⟩ := (isNumber_whole n).exists_cons
  refine ⟨⟨c, tail, htext, startsScalar_of_startsNumber hc⟩, fun {rest} hrest => ?_⟩
  have hread := readNumber_whole hleast hmost hrest
  rw [← List.append_assoc, htext, List.cons_append] at hread
  rw [htext, List.cons_append]
  simp [readScalar, ne_quote_of_startsNumber hc, hc, hread, bind, Except.bind, pure, Except.pure]

end Whole

/-! ## Other scalars -/

theorem readScalar_string {value : String} {text : List Char} (h : SpellsString value text) :
    ReadsScalar readScalar text (.string value) := by
  obtain ⟨hchars⟩ := h
  refine ⟨⟨'"', _, rfl, by decide⟩, fun {rest} _ => ?_⟩
  rw [List.cons_append, List.append_assoc, readScalar, if_pos rfl, List.singleton_append, readString_spells hchars]
  rfl

theorem readScalar_word {c : Char} {word : List Char} {json : Json} (hc : StartsScalar c)
    (hread : ∀ text, readScalar (c :: text) = do let ((), text) ← readWord word text; return (json, text)) :
    ReadsScalar readScalar (c :: word) json := by
  refine ⟨⟨c, word, rfl, hc⟩, fun {rest} _ => ?_⟩
  rw [List.cons_append, hread, readWord_append]
  rfl

theorem readScalar_null : ReadsScalar readScalar "null".toList .null :=
  readScalar_word (by decide) fun _ => rfl

theorem readScalar_bool (value : Bool) :
    ReadsScalar readScalar (if value then "true" else "false").toList (.bool value) := by
  cases value with
  | false => exact readScalar_word (by decide) fun _ => rfl
  | true => exact readScalar_word (by decide) fun _ => rfl

/-! ## Values -/

theorem readValue_scalar {text : List Char} {json : Json} (h : ReadsScalar readScalar text json) (levels : Nat) :
    Reads (readValue levels) text json := by
  refine ⟨h.begins, fun {space rest} hspace hrest => ?_⟩
  have hskip := h.begins.skipSpace_eq hspace rest
  have hread := h.read hrest
  obtain ⟨c, tail, rfl, hstart⟩ := h.starts
  obtain ⟨hbracket, hbrace⟩ := hstart.ne_start
  cases levels with
  | zero => rw [readValue, hskip, hread]
  | succ levels =>
    rw [readValue, hskip]
    simp_all

theorem readValue_array {levels : Nat} {elements : List Json} {text : List Char}
    (h : Container (fun element text => Reads (readValue levels) text element) '[' ']' elements text) :
    Reads (readValue (levels + 1)) text (.array elements) := by
  have hbegins := h.begins (by decide)
  obtain ⟨inner, rfl, hinner⟩ := h.exists_inside
  refine ⟨hbegins, fun {space rest} hspace _ => ?_⟩
  have hread := readList_inside hinner rest
  rw [readValue, hbegins.skipSpace_eq hspace]
  simp [hread, bind, Except.bind, pure, Except.pure]

theorem readValue_object {levels : Nat} {members : List (String × Json)} {text : List Char}
    (h : Container (SpellsMember fun value text => Reads (readValue levels) text value) '\x7b' '\x7d' members text)
    (hnames : (members.map Prod.fst).Nodup) : Reads (readValue (levels + 1)) text (.object members) := by
  have hbegins := h.begins (by decide)
  obtain ⟨inner, rfl, hinner⟩ := h.exists_inside
  refine ⟨hbegins, fun {space rest} hspace _ => ?_⟩
  have hlength := hinner.length_le
  have hfuel : members.length < (inner ++ '\x7d' :: rest).length + 1 := by
    simp only [List.length_append, List.length_cons, Bool.toNat_true] at hlength ⊢
    omega
  have hread := readMembers_inside hinner hfuel (List.nil_append members ▸ hnames) rest
  rw [readValue, hbegins.skipSpace_eq hspace]
  simp only [List.cons_append, List.append_assoc, List.nil_append, hread, bind, Except.bind, pure, Except.pure]

theorem SpellsMember.imp {P Q : Json → List Char → Prop} {member : String × Json} {text : List Char}
    (h : SpellsMember P member text) (himp : ∀ {part}, P member.2 part → Q member.2 part) :
    SpellsMember Q member text := by
  obtain ⟨hname, hbefore, hafter, hvalue⟩ := h
  exact .colon hname hbefore hafter (himp hvalue)

/-- A value with one reading is read off each of its texts, and each container takes one of the levels. -/
theorem reads_spells {levels : Nat} {json : Json} {text : List Char} (hexact : json.Exact) (h : Spells json text)
    (hlevels : json.nesting ≤ levels) : Reads (readValue levels) text json := by
  induction hexact generalizing levels text with
  | null =>
    cases h
    exact readValue_scalar readScalar_null _
  | bool =>
    cases h
    exact readValue_scalar (readScalar_bool _) _
  | whole hleast hmost =>
    cases h
    exact readValue_scalar (readScalar_whole hleast hmost) _
  | string =>
    obtain ⟨⟩ | ⟨⟩ | ⟨⟩ | ⟨⟩ | hstring := h
    exact readValue_scalar (readScalar_string hstring) _
  | array _ ih =>
    obtain ⟨⟩ | ⟨⟩ | ⟨⟩ | ⟨⟩ | ⟨⟩ | helements := h
    obtain ⟨levels, rfl, hinside⟩ := nesting_array_le_iff.mp hlevels
    exact readValue_array (helements.imp fun element hmem part _ hpart =>
      ih element hmem hpart (hinside element hmem))
  | object hnames _ ih =>
    obtain ⟨⟩ | ⟨⟩ | ⟨⟩ | ⟨⟩ | ⟨⟩ | ⟨⟩ | hmembers := h
    obtain ⟨levels, rfl, hinside⟩ := nesting_object_le_iff.mp hlevels
    exact readValue_object (hmembers.imp fun member hmem part _ hpart =>
      hpart.imp fun hvalue => ih member hmem hvalue (hinside member hmem)) hnames

/-! ## Whole texts -/

/-- A whole text is read when nothing but space stands around the value. -/
theorem readAll_of_spaced {reader : Reader α} {value : α} {text : String}
    (h : Spaced (fun part => Reads reader part value) text.toList) : readAll reader text = .ok value := by
  generalize htext : text.toList = whole at h
  obtain ⟨hbefore, hreads, hafter⟩ := h
  rename_i before part after
  have hends : EndsValue (after ++ []) := endsValue_append hafter (by rintro _ ⟨⟩)
  have hspace : skipSpace (after ++ []) = [] := skipSpace_append hafter []
  rw [List.append_nil] at hends hspace
  simp [readAll, htext, hreads.read hbefore hends, hspace, bind, Except.bind, pure, Except.pure]

theorem Spaced.imp {P Q : List Char → Prop} {text : List Char} (h : Spaced P text)
    (himp : ∀ {part}, P part → Q part) : Spaced Q text := by
  obtain ⟨hbefore, htext, hafter⟩ := h
  exact .around hbefore (himp htext) hafter

/-- The list takes one level, and its elements have the others. -/
theorem readsLists_parseList : ReadsLists parseList := by
  intro elements text hexact hlevels htext
  obtain _ | _ | _ | _ | hall := hexact
  obtain ⟨levels, hmost, hinside⟩ := nesting_array_le_iff.mp hlevels
  obtain rfl : mostLevels - 1 = levels := Nat.succ.inj hmost
  refine readAll_of_spaced (htext.imp fun hspells => ?_)
  obtain _ | _ | _ | _ | _ | helements := hspells
  have hread := readListOf_container (f := id) (helements.imp fun element hmem part _ hpart =>
    reads_spells (hall element hmem) hpart (hinside element hmem))
  rwa [List.map_id] at hread

/-! ## Texts that are skipped -/

/-- What the items are does not matter where all of them have the same texts. -/
theorem Items.erase {P : List Char → Prop} {items : List α} {text : List Char} (h : Items (fun _ => P) items text) :
    Items (fun _ => P) (items.map fun _ => ()) text := by
  induction h with
  | last hbefore hitem hafter => exact .last hbefore hitem hafter
  | cons hbefore hitem hafter _ ih => exact .cons hbefore hitem hafter ih

theorem Container.erase {P : List Char → Prop} {start close : Char} {items : List α} {text : List Char}
    (h : Container (fun _ => P) start close items text) :
    Container (fun _ => P) start close (items.map fun _ => ()) text := by
  cases h with
  | empty hspace => exact .empty hspace
  | items hitems => exact .items hitems.erase

theorem IsQuotable.units {units : List Nat} {escapes : List (List Char)} (h : List.Forall₂ SpellsUnit units escapes)
    {rest : List Char} (hrest : IsQuotable rest) : IsQuotable (escapes.flatten ++ rest) := by
  induction h with
  | nil => exact hrest
  | cons hunit _ ih =>
    rw [List.flatten_cons, List.append_assoc]
    exact .unit hunit ih

theorem SpellsChars.isQuotable {chars text : List Char} (h : SpellsChars chars text) : IsQuotable text := by
  induction h with
  | nil => exact .nil
  | cons hfirst _ ih =>
    cases hfirst with
    | itself hquote hbackslash hcontrol => exact .itself hquote hbackslash hcontrol ih
    | letter h => exact .letter h ih
    | units h => exact .units h ih

theorem SpellsString.isString {value : String} {text : List Char} (h : SpellsString value text) : IsString text := by
  obtain ⟨hchars⟩ := h
  exact .quoted hchars.isQuotable

/-- The texts of a value are texts of values. -/
theorem Spells.isValue {json : Json} {text : List Char} (h : Spells json text) : IsValue text := by
  -- The induction is on the length of the text, since the values inside hide behind `Container`.
  induction hlength : text.length using Nat.strongRecOn generalizing json text with
  | ind n ih =>
    subst hlength
    cases h with
    | null => exact .word (by decide)
    | @bool value => cases value <;> exact .word (by decide)
    | whole => exact .number (isNumber_whole _)
    | real h => exact .number h
    | string h => exact .string h.isString
    | array h => exact .array (h.imp fun _ _ part hpart hvalue => ih _ hpart hvalue rfl).erase
    | object h =>
      refine .object (h.imp (Q := fun _ => Member IsString IsValue) fun _ _ part hpart hmember => ?_).erase
      obtain ⟨hname, hbefore, hafter, hvalue⟩ := hmember
      simp only [List.length_append, List.length_cons] at hpart
      exact .colon hname.isString hbefore hafter (ih _ (by omega) hvalue rfl)

end FlowPath.Json
