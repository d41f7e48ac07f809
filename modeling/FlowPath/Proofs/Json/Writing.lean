import FlowPath.Json.Writer
import FlowPath.Proofs.Json.Reading

/-!
# Writing values

What is written for a value does not depend on what is written before it (`Writes`), and is one of the texts of the
value (`exists_writes_spells`): strings are spelled with escapes (`spellsString_quoted`), and a container holds what is
written for its items, in either style (`exists_writes_array`, `exists_writes_object`). So the writer of this library
gives texts of the values (`writesTexts_render`).
-/

namespace FlowPath.Json

variable {α : Type} {P : α → List Char → Prop} {V : Json → List Char → Prop} {style : Style} {level : Nat}

/-- The text is added for the value, whatever is written before it. -/
def Writes (style : Style) (level : Nat) (json : Json) (text : List Char) : Prop :=
  ∀ out, (put style level json out).toList = out.toList ++ text

theorem toList_foldl_push (chars : List Char) (out : String) :
    (chars.foldl String.push out).toList = out.toList ++ chars := by
  induction chars generalizing out with
  | nil => simp
  | cons c chars ih => simp [ih]

/-! ## Strings -/

theorem hexDigit_mem {i : Nat} (h : i < 16) : (hexDigit i, i) ∈ hexDigits := by
  have hall : ∀ i : Fin 16, (hexDigit i, i.val) ∈ hexDigits := by decide
  exact hall ⟨i, h⟩

theorem spellsUnit_control {n : Nat} (h : n < 0x20) :
    SpellsUnit n ['\\', 'u', '0', '0', hexDigit (n / 16), hexDigit (n % 16)] := by
  have hzero : ('0', 0) ∈ hexDigits := by decide
  have hspells := SpellsUnit.digits hzero hzero (hexDigit_mem (show n / 16 < 16 by omega))
    (hexDigit_mem (Nat.mod_lt n (by decide)))
  rwa [show 0 * 0x1000 + 0 * 0x100 + n / 16 * 0x10 + n % 16 = n by omega] at hspells

theorem spellsChar_escapeChar (c : Char) : SpellsChar c (escapeChar c) := by
  unfold escapeChar
  split_ifs with hquote hbackslash hnewline hreturn htab hback hfeed hcontrol
  · subst hquote
    exact .letter (by decide)
  · subst hbackslash
    exact .letter (by decide)
  · subst hnewline
    exact .letter (by decide)
  · subst hreturn
    exact .letter (by decide)
  · subst htab
    exact .letter (by decide)
  · subst hback
    exact .letter (by decide)
  · subst hfeed
    exact .letter (by decide)
  · have hunits : List.Forall₂ SpellsUnit (units c)
        [['\\', 'u', '0', '0', hexDigit (c.toNat / 16), hexDigit (c.toNat % 16)]] := by
      rw [units, if_pos (Nat.lt_trans hcontrol (by decide))]
      exact .cons (spellsUnit_control hcontrol) .nil
    exact .units hunits
  · exact .itself hquote hbackslash (Nat.not_lt.mp hcontrol)

theorem spellsString_quoted (value : String) :
    SpellsString value ('"' :: (value.toList.flatMap escapeChar ++ ['"'])) := by
  have hchars : ∀ chars, SpellsChars chars (chars.flatMap escapeChar) := by
    intro chars
    induction chars with
    | nil => exact .nil
    | cons c chars ih => exact .cons (spellsChar_escapeChar c) ih
  exact .quoted (hchars value.toList)

theorem toList_putString (value out : String) :
    (putString value out).toList = out.toList ++ '"' :: (value.toList.flatMap escapeChar ++ ['"']) := by
  have hfold : ∀ (chars : List Char) (out : String),
      (chars.foldl (fun out c => (escapeChar c).foldl String.push out) out).toList =
        out.toList ++ chars.flatMap escapeChar := by
    intro chars
    induction chars with
    | nil => simp
    | cons c chars ih => simp [ih, toList_foldl_push]
  simp [putString, hfold]

/-! ## Numbers -/

theorem toList_text_whole (n : Int) :
    (JsonNumber.text (.whole n)).toList = signText n ++ Nat.toDigits 10 n.natAbs := by
  rw [JsonNumber.text, String.toList_ofList, signText]
  split <;> rfl

/-! ## Containers -/

/-- The space in front of a line. -/
def lineSpace (style : Style) (level : Nat) : List Char :=
  match style with
  | .compact => []
  | .pretty => '\n' :: List.replicate (2 * level) ' '

theorem space_lineSpace (style : Style) (level : Nat) : Space (lineSpace style level) := by
  cases style <;> simp [lineSpace, Space]

theorem toList_putLine (style : Style) (level : Nat) (out : String) :
    (putLine style level out).toList = out.toList ++ lineSpace style level := by
  cases style <;> simp [putLine, lineSpace, toList_foldl_push]

/-- The text of a member. -/
def memberText (style : Style) (name : String) (text : List Char) : List Char :=
  '"' :: (name.toList.flatMap escapeChar ++ ['"']) ++
    ([] ++ ':' :: ((match style with | .compact => [] | .pretty => [' ']) ++ text))

theorem toList_putName (style : Style) (name out : String) :
    (putName style name out).toList = out.toList ++ memberText style name [] := by
  cases style <;> simp [putName, memberText, toList_putString]

theorem spellsMember_memberText (style : Style) (name : String) {value : Json} {text : List Char} (h : V value text) :
    SpellsMember V (name, value) (memberText style name text) := by
  refine .colon (spellsString_quoted name) space_nil ?_ h
  cases style <;> simp [Space]

/-- The elements after the first one, which are added behind the text of that one. -/
theorem exists_writes_elements {rest : List Json}
    (h : ∀ element ∈ rest, ∃ text, Writes style level element text ∧ V element text) :
    ∃ text, (∀ out, (putElements style level rest out).toList = out.toList ++ text) ∧
      ∀ {element first before after}, Space before → V element first → Space after →
        Items V (element :: rest) (before ++ (first ++ (text ++ after))) := by
  induction rest with
  | nil =>
    refine ⟨[], fun out => by simp [putElements], fun hbefore hfirst hafter => ?_⟩
    exact .last hbefore hfirst hafter
  | cons a rest ih =>
    obtain ⟨text, hwrites, htext⟩ := h a (List.mem_cons_self ..)
    obtain ⟨more, hmore, hitems⟩ := ih fun b hb => h b (List.mem_cons_of_mem _ hb)
    refine ⟨',' :: (lineSpace style level ++ (text ++ more)), fun out => ?_, fun hbefore hfirst hafter => ?_⟩
    · simp [putElements, hmore, hwrites _, toList_putLine]
    · have hrest := hitems (space_lineSpace style level) htext hafter
      simpa using Items.cons hbefore hfirst space_nil hrest

theorem exists_writes_array {elements : List Json}
    (h : ∀ element ∈ elements, ∃ text, Writes style (level + 1) element text ∧ V element text) :
    ∃ text, Writes style level (.array elements) text ∧ Container V '[' ']' elements text := by
  cases elements with
  | nil => exact ⟨['[', ']'], fun out => by simp [put], .empty space_nil⟩
  | cons a rest =>
    obtain ⟨first, hwrites, hfirst⟩ := h a (List.mem_cons_self ..)
    obtain ⟨more, hmore, hitems⟩ := exists_writes_elements fun b hb => h b (List.mem_cons_of_mem _ hb)
    refine ⟨_, fun out => ?_, .items (hitems (space_lineSpace style (level + 1)) hfirst (space_lineSpace style level))⟩
    simp [put, hmore, hwrites _, toList_putLine]

/-- The members after the first one, which are added behind the text of that one. -/
theorem exists_writes_members {rest : List (String × Json)}
    (h : ∀ member ∈ rest, ∃ text, Writes style level member.2 text ∧ V member.2 text) :
    ∃ text, (∀ out, (putMembers style level rest out).toList = out.toList ++ text) ∧
      ∀ {member first before after}, Space before → SpellsMember V member first → Space after →
        Items (SpellsMember V) (member :: rest) (before ++ (first ++ (text ++ after))) := by
  induction rest with
  | nil =>
    refine ⟨[], fun out => by simp [putMembers], fun hbefore hfirst hafter => ?_⟩
    exact .last hbefore hfirst hafter
  | cons member rest ih =>
    obtain ⟨name, value⟩ := member
    obtain ⟨text, hwrites, htext⟩ := h _ (List.mem_cons_self ..)
    obtain ⟨more, hmore, hitems⟩ := ih fun b hb => h b (List.mem_cons_of_mem _ hb)
    refine ⟨',' :: (lineSpace style level ++ (memberText style name text ++ more)), fun out => ?_,
      fun hbefore hfirst hafter => ?_⟩
    · simp [putMembers, hmore, hwrites _, toList_putLine, toList_putName, memberText]
    · have hrest := hitems (space_lineSpace style level) (spellsMember_memberText style name htext) hafter
      simpa using Items.cons hbefore hfirst space_nil hrest

theorem exists_writes_object {members : List (String × Json)}
    (h : ∀ member ∈ members, ∃ text, Writes style (level + 1) member.2 text ∧ V member.2 text) :
    ∃ text, Writes style level (.object members) text ∧ Container (SpellsMember V) '\x7b' '\x7d' members text := by
  cases members with
  | nil => exact ⟨['\x7b', '\x7d'], fun out => by simp [put], .empty space_nil⟩
  | cons member rest =>
    obtain ⟨name, value⟩ := member
    obtain ⟨first, hwrites, hfirst⟩ := h _ (List.mem_cons_self ..)
    obtain ⟨more, hmore, hitems⟩ := exists_writes_members fun b hb => h b (List.mem_cons_of_mem _ hb)
    refine ⟨_, fun out => ?_, .items (hitems (space_lineSpace style (level + 1))
      (spellsMember_memberText style name hfirst) (space_lineSpace style level))⟩
    simp [put, hmore, hwrites _, toList_putLine, toList_putName, memberText]

/-- What is written for a value is one of its texts. -/
theorem exists_writes_spells {json : Json} (h : json.Exact) (style : Style) (level : Nat) :
    ∃ text, Writes style level json text ∧ Spells json text := by
  induction h generalizing level with
  | null => exact ⟨_, fun out => by simp [put], .null⟩
  | bool => exact ⟨_, fun out => by simp [put], .bool⟩
  | whole => exact ⟨_, fun out => by simp [put, toList_text_whole], .whole⟩
  | @string value => exact ⟨_, fun out => by simp [put, toList_putString], .string (spellsString_quoted value)⟩
  | array _ ih =>
    obtain ⟨text, hwrites, htext⟩ := exists_writes_array fun element hmem => ih element hmem (level + 1)
    exact ⟨text, hwrites, .array htext⟩
  | object _ _ ih =>
    obtain ⟨text, hwrites, htext⟩ := exists_writes_object fun member hmem => ih member hmem (level + 1)
    exact ⟨text, hwrites, .object htext⟩

theorem Spaced.of {Q : List Char → Prop} {text : List Char} (h : Q text) : Spaced Q text := by
  simpa using Spaced.around space_nil h space_nil

theorem writesTexts_render (style : Style) : WritesTexts (render style) := by
  intro json hexact
  obtain ⟨text, hwrites, hspells⟩ := exists_writes_spells hexact style 0
  have htext : (render style json).toList = text := hwrites ""
  rw [IsText, htext]
  exact .of hspells

/-! ## Texts between commas -/

theorem items_intercalate {text : α → List Char} {first : α} {rest : List α}
    (h : ∀ a ∈ first :: rest, Spaced (P a) (text a)) :
    Items P (first :: rest) ([','].intercalate ((first :: rest).map text)) := by
  induction rest generalizing first with
  | nil =>
    have hfirst := h first (List.mem_cons_self ..)
    simp only [List.map_cons, List.map_nil, List.intercalate_singleton]
    generalize text first = whole at hfirst
    obtain ⟨hbefore, hitem, hafter⟩ := hfirst
    exact .last hbefore hitem hafter
  | cons second rest ih =>
    have hmore := ih fun a ha => h a (List.mem_cons_of_mem _ ha)
    have hfirst := h first (List.mem_cons_self ..)
    rw [List.map_cons, List.map_cons, List.intercalate_cons_cons]
    generalize text first = whole at hfirst
    obtain ⟨hbefore, hitem, hafter⟩ := hfirst
    simpa using Items.cons hbefore hitem hafter hmore

/-- Texts joined by commas are the inside of a container. -/
theorem container_intercalate {start close : Char} {text : α → List Char} {items : List α}
    (h : ∀ a ∈ items, Spaced (P a) (text a)) :
    Container P start close items (start :: ([','].intercalate (items.map text) ++ [close])) := by
  cases items with
  | nil => exact .empty space_nil
  | cons first rest => exact .items (items_intercalate h)

theorem exists_container {start close : Char} {items : List α} (h : ∀ a ∈ items, ∃ text, P a text) :
    ∃ text, Container P start close items text := by
  have htotal : ∀ a, ∃ text, a ∈ items → Spaced (P a) text := by
    intro a
    by_cases ha : a ∈ items
    · obtain ⟨text, htext⟩ := h a ha
      exact ⟨text, fun _ => .of htext⟩
    · exact ⟨[], fun hmem => absurd hmem ha⟩
  obtain ⟨text, htext⟩ := Classical.skolem.mp htotal
  exact ⟨_, container_intercalate htext⟩

/-- Every value can be written; for a number that is not whole any numeral will do. -/
theorem exists_spells (json : Json) : ∃ text, Spells json text := by
  induction hnesting : json.nesting using Nat.strongRecOn generalizing json with
  | ind n ih =>
    subst hnesting
    cases json with
    | null => exact ⟨_, .null⟩
    | bool => exact ⟨_, .bool⟩
    | number value =>
      cases value with
      | whole => exact ⟨_, .whole⟩
      | real => exact ⟨_, .real (isNumber_whole 0)⟩
    | string value => exact ⟨_, .string (spellsString_quoted value)⟩
    | array elements =>
      obtain ⟨text, htext⟩ := exists_container fun element hmem => ih _ (nesting_lt_array hmem) element rfl
      exact ⟨text, .array htext⟩
    | object members =>
      have hmembers : ∀ member ∈ members, ∃ text, SpellsMember Spells member text := by
        rintro ⟨name, value⟩ hmem
        obtain ⟨text, htext⟩ := ih _ (nesting_lt_object hmem) value rfl
        exact ⟨_, spellsMember_memberText .compact name htext⟩
      obtain ⟨text, htext⟩ := exists_container hmembers
      exact ⟨text, .object htext⟩

end FlowPath.Json
