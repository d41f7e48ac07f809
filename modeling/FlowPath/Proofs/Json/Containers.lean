import FlowPath.Json.Record
import FlowPath.Proofs.Json.Scalars

/-!
# Going through containers

All loops over a container go through it in the same way: they look for the next item, behind a comma or at the start,
until they find the end. `Inside` is the inside of a container as such a loop sees it. A list is read when its items
are (`readListOf_container`), and every text of a value can be skipped, whatever its depth (`skipValue_isValue`).
-/

namespace FlowPath.Json

variable {α β : Type} {P Q : α → List Char → Prop}

/-- The text starts like a value: neither with space nor with the end of a container. -/
def Begins (text : List Char) : Prop := ∃ c tail, text = c :: tail ∧ isSpace c = false ∧ c ∉ [']', '\x7d']

theorem Begins.skipSpace_eq {text space : List Char} (h : Begins text) (hspace : Space space) (rest : List Char) :
    skipSpace (space ++ (text ++ rest)) = text ++ rest := by
  obtain ⟨c, tail, rfl, hc, -⟩ := h
  rw [skipSpace_append hspace]
  exact skipSpace_cons hc (tail ++ rest)

/-- The reader takes the text for the value, with space in front of it, and leaves what is behind it. -/
structure Reads (reader : Reader α) (text : List Char) (value : α) : Prop where
  begins : Begins text
  read : ∀ {space rest}, Space space → EndsValue rest → reader (space ++ (text ++ rest)) = .ok (value, rest)

/-- A reader that goes on with what another one has read. -/
theorem Reads.map {reader : Reader α} {text : List Char} {value : α} (h : Reads reader text value) (f : α → β) :
    Reads (fun text => do let (value, text) ← reader text; return (f value, text)) text (f value) := by
  refine ⟨h.begins, fun hspace hrest => ?_⟩
  simp [h.read hspace hrest, bind, Except.bind, pure, Except.pure]

theorem ReadsScalar.begins {reader : Reader α} {text : List Char} {value : α} (h : ReadsScalar reader text value) :
    Begins text := by
  obtain ⟨c, tail, htext, hspace, hnot⟩ := h.starts
  have hends : [']', '\x7d'] ⊆ ['[', ']', '\x7b', '\x7d'] := by decide
  exact ⟨c, tail, htext, hspace, fun hc => hnot (hends hc)⟩

theorem begins_quote (text : List Char) : Begins ('"' :: text) := ⟨'"', text, rfl, rfl, by decide⟩

theorem space_nil : Space [] := by
  rintro _ ⟨⟩

/-! ## The inside of a container -/

theorem Items.imp {items : List α} {text : List Char} (h : Items P items text)
    (himp : ∀ item ∈ items, ∀ part, part.length ≤ text.length → P item part → Q item part) : Items Q items text := by
  induction h with
  | last hbefore hitem hafter =>
    refine .last hbefore (himp _ (List.mem_cons_self ..) _ ?_ hitem) hafter
    simp only [List.length_append]
    omega
  | cons hbefore hitem hafter _ ih =>
    simp only [List.length_append, List.length_cons] at himp
    refine .cons hbefore (himp _ (List.mem_cons_self ..) _ (by omega) hitem) hafter (ih ?_)
    exact fun item hmem part hlength => himp item (List.mem_cons_of_mem _ hmem) part (by omega)

theorem Container.imp {start close : Char} {items : List α} {text : List Char}
    (h : Container P start close items text)
    (himp : ∀ item ∈ items, ∀ part, part.length < text.length → P item part → Q item part) :
    Container Q start close items text := by
  cases h with
  | empty hspace => exact .empty hspace
  | items hitems =>
    simp only [List.length_cons, List.length_append] at himp
    exact .items (hitems.imp fun item hmem part hlength => himp item hmem part (by omega))

theorem Items.zip {items : List α} {others : List β} {text : List Char} (h : Items P items text)
    (hlength : items.length = others.length) : Items (fun pair => P pair.1) (items.zip others) text := by
  induction h generalizing others with
  | last hbefore hitem hafter =>
    obtain ⟨other, rfl⟩ := List.length_eq_one_iff.mp hlength.symm
    exact .last hbefore hitem hafter
  | cons hbefore hitem hafter _ ih =>
    cases others with
    | nil => cases hlength
    | cons other others => exact .cons hbefore hitem hafter (ih (Nat.succ.inj hlength))

/-- The items of a container can be paired with others. -/
theorem Container.zip {start close : Char} {items : List α} {others : List β} {text : List Char}
    (h : Container P start close items text) (hlength : items.length = others.length) :
    Container (fun pair => P pair.1) start close (items.zip others) text := by
  cases h with
  | empty hspace => exact .empty hspace
  | items hitems => exact .items (hitems.zip hlength)

/-- What stands in front of an item and the space before it. -/
inductive Lead : Bool → List Char → Prop where
  | first : Lead true []
  | next {space : List Char} (h : Space space) : Lead false (space ++ [','])

/-- Items up to the end of their container, where the flag tells whether the first one of all is among them. -/
inductive Inside (P : α → List Char → Prop) : Bool → List α → List Char → Prop where
  | close {first : Bool} {space : List Char} (hspace : Space space) : Inside P first [] space
  | item {first : Bool} {lead before text more : List Char} {item : α} {items : List α} (hlead : Lead first lead)
    (hbefore : Space before) (hitem : P item text) (hmore : Inside P false items more) :
    Inside P first (item :: items) (lead ++ (before ++ (text ++ more)))

/-- The comma behind an item becomes the lead of the next one. -/
theorem Items.inside {items : List α} {text : List Char} (h : Items P items text) {first : Bool} {lead : List Char}
    (hlead : Lead first lead) : Inside P first items (lead ++ text) := by
  induction h generalizing first lead with
  | last hbefore hitem hafter => exact .item hlead hbefore hitem (.close hafter)
  | cons hbefore hitem hafter _ ih =>
    have hmore := ih (.next hafter)
    rw [List.append_assoc] at hmore
    exact .item hlead hbefore hitem hmore

theorem Container.exists_inside {start close : Char} {items : List α} {text : List Char}
    (h : Container P start close items text) :
    ∃ inner, text = start :: (inner ++ [close]) ∧ Inside P true items inner := by
  cases h with
  | empty hspace => exact ⟨_, rfl, .close hspace⟩
  | items hitems => exact ⟨_, rfl, hitems.inside .first⟩

/-- All items but the first one have a comma. -/
theorem Inside.length_le {first : Bool} {items : List α} {inner : List Char} (h : Inside P first items inner) :
    items.length ≤ inner.length + first.toNat := by
  induction h with
  | close => simp
  | item hlead _ _ _ ih =>
    simp only [List.length_cons, List.length_append, Bool.toNat_false] at ih ⊢
    cases hlead with
    | first => simp only [List.length_nil, Bool.toNat_true]; omega
    | next => simp only [List.length_append, List.length_cons]; omega

theorem endsValue_cons {close : Char} (hclose : close ∈ [']', '\x7d']) (rest : List Char) :
    EndsValue (close :: rest) := by
  rintro _ ⟨⟩
  simp only [List.mem_cons, List.not_mem_nil, or_false] at hclose
  exact .inr (.inr hclose)

theorem Inside.endsValue {items : List α} {inner : List Char} (h : Inside P false items inner) {close : Char}
    (hclose : close ∈ [']', '\x7d']) (rest : List Char) : EndsValue (inner ++ close :: rest) := by
  cases h with
  | close hspace => exact endsValue_append hspace (endsValue_cons hclose rest)
  | item hlead =>
    cases hlead with
    | next hspace =>
      simp only [List.append_assoc]
      refine endsValue_append hspace ?_
      rintro _ ⟨⟩
      exact .inr (.inl rfl)

/-! ## The next item -/

theorem isSpace_close {close : Char} (hclose : close ∈ [']', '\x7d']) : isSpace close = false := by
  simp only [List.mem_cons, List.not_mem_nil, or_false] at hclose
  rcases hclose with rfl | rfl <;> rfl

theorem nextItem?_close {close : Char} (hclose : close ∈ [']', '\x7d']) {space : List Char} (hspace : Space space)
    (first : Bool) (rest : List Char) : nextItem? close first (space ++ close :: rest) = .ok none := by
  simp [nextItem?, skipSpace_append hspace, skipSpace_cons (isSpace_close hclose)]

theorem readClose_append {close : Char} (hclose : close ∈ [']', '\x7d']) {space : List Char} (hspace : Space space)
    (rest : List Char) : readClose close (space ++ close :: rest) = .ok ((), rest) := by
  rw [readClose, skipSpace_append hspace, skipSpace_cons (isSpace_close hclose)]
  exact readWord_append [close] rest

theorem readColon_append {space : List Char} (hspace : Space space) (rest : List Char) :
    readColon (space ++ ':' :: rest) = .ok ((), rest) := by
  rw [readColon, skipSpace_append hspace, skipSpace_cons rfl]
  exact readWord_append [':'] rest

theorem nextItem?_item {close : Char} (hclose : close ∈ [']', '\x7d']) {first : Bool} {lead before text : List Char}
    (hlead : Lead first lead) (hbefore : Space before) (htext : Begins text) (rest : List Char) :
    nextItem? close first (lead ++ (before ++ (text ++ rest))) = .ok (some (text ++ rest)) := by
  have hskip := htext.skipSpace_eq hbefore rest
  obtain ⟨c, tail, rfl, hc, hnot⟩ := htext
  have hne : c ≠ close := fun h => hnot (h ▸ hclose)
  rw [List.cons_append] at hskip ⊢
  cases hlead with
  | first => simp [nextItem?, hskip, hne]
  | next hspace =>
    have hcomma : ',' ≠ close := fun h => absurd (h ▸ hclose) (by decide)
    have hskipComma : ∀ text, skipSpace (',' :: text) = ',' :: text := skipSpace_cons rfl
    simp [nextItem?, skipSpace_append hspace, hskipComma, hskip, hne, hcomma]

/-! ## Lists -/

theorem readItems_inside {item : Reader β} {f : α → β} {first : Bool} {items : List α} {inner : List Char}
    (h : Inside (fun a text => Reads item text (f a)) first items inner) {fuel : Nat} (hfuel : items.length < fuel)
    {done : List β} (hdone : done.isEmpty = first) (rest : List Char) :
    readItems item fuel done (inner ++ ']' :: rest) = .ok (done.reverse ++ items.map f, rest) := by
  obtain ⟨fuel, rfl⟩ := Nat.exists_eq_add_one_of_ne_zero (Nat.ne_zero_of_lt hfuel)
  induction h generalizing fuel done with
  | close hspace =>
    simp [readItems, nextItem?_close (List.mem_cons_self ..) hspace, readClose_append (List.mem_cons_self ..) hspace,
      bind, Except.bind, pure, Except.pure]
  | item hlead hbefore hitem hmore ih =>
    subst hdone
    obtain ⟨fuel, rfl⟩ := Nat.exists_eq_add_one_of_ne_zero (Nat.ne_zero_of_lt (Nat.lt_of_succ_lt_succ hfuel))
    have hnext := nextItem?_item (List.mem_cons_self ..) hlead hbefore hitem.begins
    have hread := hitem.read space_nil (hmore.endsValue (List.mem_cons_self ..) rest)
    rw [List.nil_append] at hread
    simp only [List.append_assoc]
    rw [readItems, hnext]
    simp only [bind, Except.bind, hread]
    rw [ih rfl fuel (Nat.lt_of_succ_lt_succ hfuel)]
    simp

theorem readList_inside {item : Reader β} {f : α → β} {items : List α} {inner : List Char}
    (h : Inside (fun a text => Reads item text (f a)) true items inner) (rest : List Char) :
    readList item (inner ++ ']' :: rest) = .ok (items.map f, rest) := by
  have hlength := h.length_le
  refine readItems_inside h ?_ rfl rest
  simp only [List.length_append, List.length_cons, Bool.toNat_true] at hlength ⊢
  omega

theorem Container.begins {start close : Char} {items : List α} {text : List Char}
    (h : Container P start close items text) (hstart : start ∈ ['[', '\x7b']) : Begins text := by
  have hbegins : isSpace start = false ∧ start ∉ [']', '\x7d'] := by
    simp only [List.mem_cons, List.not_mem_nil, or_false] at hstart
    rcases hstart with rfl | rfl <;> decide
  obtain ⟨inner, rfl, -⟩ := h.exists_inside
  exact ⟨start, _, rfl, hbegins⟩

theorem readListOf_container {item : Reader β} {f : α → β} {items : List α} {text : List Char}
    (h : Container (fun a text => Reads item text (f a)) '[' ']' items text) :
    Reads (readListOf item) text (items.map f) := by
  have hbegins := h.begins (by decide)
  obtain ⟨inner, rfl, hinner⟩ := h.exists_inside
  refine ⟨hbegins, fun {space rest} hspace _ => ?_⟩
  have hread := readList_inside hinner rest
  rw [readListOf, hbegins.skipSpace_eq hspace]
  simpa using hread

/-! ## Objects -/

theorem readName_append {value : String} {text : List Char} (h : SpellsString value text) (rest : List Char) :
    readName (text ++ rest) = .ok (value, rest) := by
  obtain ⟨hchars⟩ := h
  rw [List.cons_append, List.append_assoc, readName]
  exact readString_spells hchars rest

theorem SpellsMember.begins {V : Json → List Char → Prop} {member : String × Json} {text : List Char}
    (h : SpellsMember V member text) : Begins text := by
  obtain ⟨⟨-⟩, -, -, -⟩ := h
  exact begins_quote _

/-- A new name goes to the end. -/
theorem setMember_append {name : String} {value : Json} {members : List (String × Json)}
    (h : name ∉ members.map Prod.fst) : setMember name value members = members ++ [(name, value)] := by
  induction members with
  | nil => rfl
  | cons member members ih =>
    obtain ⟨other, old⟩ := member
    simp only [List.map_cons, List.mem_cons, not_or] at h
    rw [setMember, if_neg (Ne.symm h.1), ih h.2]
    rfl

/-- The names of `done` and of the members to come are all different, which each step keeps. -/
theorem readMembers_inside {item : Reader Json} {first : Bool} {members : List (String × Json)} {inner : List Char}
    (h : Inside (SpellsMember fun value text => Reads item text value) first members inner) {fuel : Nat}
    (hfuel : members.length < fuel) {done : List (String × Json)}
    (hnames : ((done ++ members).map Prod.fst).Nodup) (rest : List Char) :
    readMembers item fuel first done (inner ++ '\x7d' :: rest) = .ok (done ++ members, rest) := by
  have hclose : '\x7d' ∈ [']', '\x7d'] := by decide
  induction h generalizing fuel done with
  | close hspace =>
    obtain ⟨fuel, rfl⟩ := Nat.exists_eq_add_one_of_ne_zero (Nat.ne_zero_of_lt hfuel)
    simp [readMembers, nextItem?_close hclose hspace, readClose_append hclose hspace, bind, Except.bind, pure,
      Except.pure]
  | item hlead hbefore hmember hmore ih =>
    rename_i first lead before text more member members
    obtain ⟨fuel, rfl⟩ := Nat.exists_eq_add_one_of_ne_zero (Nat.ne_zero_of_lt hfuel)
    have hnext := nextItem?_item hclose hlead hbefore hmember.begins (more ++ '\x7d' :: rest)
    have hend := hmore.endsValue hclose rest
    obtain ⟨hname, hcolon, hspace, hvalue⟩ := hmember
    rename_i name value _ _ _ _
    have hnew : name ∉ done.map Prod.fst := by
      have hmiddle := (List.perm_middle.map Prod.fst).nodup_iff.mp hnames
      rw [List.map_cons, List.map_append, List.nodup_cons] at hmiddle
      exact fun hmem => hmiddle.1 (List.mem_append_left _ hmem)
    have hlist : done ++ (name, value) :: members = done ++ [(name, value)] ++ members := List.append_cons ..
    simp only [List.append_assoc, List.cons_append] at hnext ⊢
    rw [readMembers, hnext, hlist]
    simp only [bind, Except.bind, readName_append hname, readColon_append hcolon, hvalue.read hspace hend,
      setMember_append hnew]
    exact ih (Nat.lt_of_succ_lt_succ hfuel) (hlist ▸ hnames)

/-! ## Skipping -/

/-- Skips one item of the innermost open container. -/
def skipItem (close : Char) (fuel : Nat) (opened : List Char) : Reader Unit := fun text => do
  if close = '\x7d' then
    let ((), text) ← skipName text
    skipInside fuel (close :: opened) text
  else skipInside fuel (close :: opened) text

/-- The text of a value is skipped, at a price of two steps a character. -/
def Skips (text : List Char) : Prop :=
  Begins text ∧ ∃ cost ≤ 2 * text.length, ∀ {rest}, EndsValue rest → ∀ fuel opened,
    skipInside (cost + fuel) opened (text ++ rest) = skipNext fuel opened false rest

/-- The text of an item is skipped at the same price. -/
def SkipsItem (close : Char) (text : List Char) : Prop :=
  Begins text ∧ ∃ cost ≤ 2 * text.length, ∀ {rest}, EndsValue rest → ∀ fuel opened,
    skipItem close (cost + fuel) opened (text ++ rest) = skipNext fuel (close :: opened) false rest

theorem skipInside_space {space : List Char} (hspace : Space space) (fuel : Nat) (opened text : List Char) :
    skipInside fuel opened (space ++ text) = skipInside fuel opened text := by
  cases fuel with
  | zero => rfl
  | succ fuel => rw [skipInside, skipInside, skipSpace_append hspace]

theorem skips_scalar {text : List Char} (h : ReadsScalar skipScalar text ()) : Skips text := by
  have hbegins := h.begins
  obtain ⟨⟨c, tail, rfl, hstart⟩, hread⟩ := h
  obtain ⟨hbracket, hbrace⟩ := hstart.ne_start
  refine ⟨hbegins, 1, by rw [List.length_cons]; omega, fun hrest fuel opened => ?_⟩
  have hskip := hread hrest
  rw [List.cons_append] at hskip ⊢
  rw [Nat.add_comm, skipInside, skipSpace_cons hstart.1]
  simp [hbracket, hbrace, hskip, bind, Except.bind]

/-- The rest of a container costs one step for its end and one for each item, which the commas pay, but for the first
item. -/
theorem skipNext_inside {close : Char} (hclose : close ∈ [']', '\x7d']) {first : Bool} {items : List α}
    {inner : List Char} (h : Inside (fun _ => SkipsItem close) first items inner) :
    ∃ cost ≤ 2 * inner.length + 1 + first.toNat, ∀ fuel opened rest,
      skipNext (cost + fuel) (close :: opened) first (inner ++ close :: rest) = skipNext fuel opened false rest := by
  induction h with
  | close hspace =>
    refine ⟨1, by omega, fun fuel opened rest => ?_⟩
    rw [Nat.add_comm, skipNext, nextItem?_close hclose hspace]
    simp [readClose_append hclose hspace, bind, Except.bind]
  | item hlead hbefore hitem hmore ih =>
    obtain ⟨hbegins, cost, hcost, hskip⟩ := hitem
    obtain ⟨more, hmoreCost, hskipMore⟩ := ih
    refine ⟨1 + (cost + more), ?_, fun fuel opened rest => ?_⟩
    · simp only [List.length_append, Bool.toNat_false] at hmoreCost ⊢
      cases hlead with
      | first => simp only [List.length_nil, Bool.toNat_true]; omega
      | next => simp only [List.length_append, List.length_cons]; omega
    · have hskipItem := hskip (hmore.endsValue hclose rest) (more + fuel) opened
      have hfuel : 1 + (cost + more) + fuel = cost + (more + fuel) + 1 := by omega
      simp only [List.append_assoc]
      rw [hfuel, skipNext, nextItem?_item hclose hlead hbefore hbegins, ← hskipMore fuel opened rest, ← hskipItem]
      rfl

theorem skips_container {start close : Char} (hpair : (start, close) ∈ [('[', ']'), ('\x7b', '\x7d')])
    {items : List α} {text : List Char} (h : Container (fun _ => SkipsItem close) start close items text) :
    Skips text := by
  simp only [List.mem_cons, List.not_mem_nil, or_false, Prod.mk.injEq] at hpair
  have hclose : close ∈ [']', '\x7d'] := by
    rcases hpair with ⟨-, rfl⟩ | ⟨-, rfl⟩ <;> decide
  have hbegins := h.begins (by rcases hpair with ⟨rfl, -⟩ | ⟨rfl, -⟩ <;> decide)
  obtain ⟨inner, rfl, hinner⟩ := h.exists_inside
  obtain ⟨cost, hcost, hskip⟩ := skipNext_inside hclose hinner
  have htotal : cost + 1 ≤ 2 * (start :: (inner ++ [close])).length := by
    simp only [List.length_cons, List.length_append, List.length_nil, Bool.toNat_true] at hcost ⊢
    omega
  refine ⟨hbegins, cost + 1, htotal, fun {rest} hrest fuel opened => ?_⟩
  have hstart := hbegins.skipSpace_eq space_nil rest
  have hinside := hskip fuel opened rest
  rw [Nat.add_right_comm]
  rcases hpair with ⟨rfl, rfl⟩ | ⟨rfl, rfl⟩ <;> simp_all [skipInside]

theorem skipName_append {name before : List Char} (hname : IsString name) (hbefore : Space before)
    (rest : List Char) : skipName (name ++ (before ++ ':' :: rest)) = .ok ((), rest) := by
  rcases hname with @⟨inner, hinner⟩
  have hskip := skipChars_append hinner (before ++ ':' :: rest)
  rw [List.cons_append, List.append_assoc, List.singleton_append, skipName, hskip]
  exact readColon_append hbefore rest

theorem skipsItem_element {text : List Char} (h : Skips text) : SkipsItem ']' text := by
  obtain ⟨hbegins, cost, hcost, hskip⟩ := h
  exact ⟨hbegins, cost, hcost, fun hrest fuel opened => hskip hrest fuel (']' :: opened)⟩

theorem skipsItem_member {text : List Char} (h : Member IsString Skips text) : SkipsItem '\x7d' text := by
  obtain ⟨hname, hbefore, hafter, -, cost, hcost, hskip⟩ := h
  refine ⟨?_, cost, by simp only [List.length_append, List.length_cons]; omega, fun hrest fuel opened => ?_⟩
  · cases hname
    exact begins_quote _
  · have hvalue := hskip hrest fuel ('\x7d' :: opened)
    simp only [List.append_assoc, List.cons_append]
    simp [skipItem, skipName_append hname hbefore, skipInside_space hafter, hvalue, bind, Except.bind]

theorem IsValue.skips {text : List Char} (h : IsValue text) : Skips text := by
  -- The induction is on the length of the text, since the values inside hide behind `Container`.
  induction hlength : text.length using Nat.strongRecOn generalizing text with
  | ind n ih =>
    subst hlength
    cases h with
    | word h => exact skips_scalar (skipScalar_word h)
    | number h => exact skips_scalar (skipScalar_number h)
    | string h => exact skips_scalar (skipScalar_string h)
    | array h =>
      refine skips_container (by decide) (h.imp fun _ _ part hpart hvalue => ?_)
      exact skipsItem_element (ih _ hpart hvalue rfl)
    | object h =>
      refine skips_container (by decide) (h.imp fun _ _ part hpart hmember => skipsItem_member ?_)
      obtain ⟨hname, hbefore, hafter, hvalue⟩ := hmember
      simp only [List.length_append, List.length_cons] at hpart
      exact .colon hname hbefore hafter (ih _ (by omega) hvalue rfl)

/-- Any text of a value is skipped as a whole. -/
theorem skipValue_isValue {text : List Char} (h : IsValue text) : Reads skipValue text () := by
  obtain ⟨hbegins, cost, hcost, hskip⟩ := h.skips
  refine ⟨hbegins, fun {space rest} hspace hrest => ?_⟩
  obtain ⟨fuel, hfuel⟩ : ∃ fuel, 2 * (space ++ (text ++ rest)).length + 2 = cost + (fuel + 1) :=
    ⟨2 * (space ++ (text ++ rest)).length + 1 - cost, by simp only [List.length_append]; omega⟩
  rw [skipValue, hfuel, skipInside_space hspace, hskip hrest]
  rfl

/-! ## Records -/

section Records

variable {σ : Type} {fields : List (RecordField σ)} {name : α → String} {set : σ → α → σ}

/-- The member changes the record as its field says, and not at all when no field has its name. -/
def ReadsMember (fields : List (RecordField σ)) (name : α → String) (set : σ → α → σ) (member : α) :
    List Char → Prop :=
  Member (SpellsString (name member)) fun value =>
    match fields.find? fun field => field.name == name member with
    | some field => ∀ record, Reads (field.read record) value (set record member)
    | none => IsValue value ∧ ∀ record, set record member = record

/-- The names that are names of fields. -/
def knownNames (fields : List (RecordField σ)) (names : List String) : List String :=
  names.filter fun name => (fields.find? fun field => field.name == name).isSome

theorem readText_spells {value : String} {text : List Char} (h : SpellsString value text) :
    Reads readText text value := by
  obtain ⟨hchars⟩ := h
  refine ⟨begins_quote _, fun {space rest} hspace _ => ?_⟩
  have hread := readString_spells hchars rest
  rw [readText, (begins_quote _).skipSpace_eq hspace]
  simpa using hread

/-- Only `null` starts with an `n`. -/
theorem readOptional_of_reads {item : Reader α} {c : Char} {tail : List Char} {value : α}
    (h : Reads item (c :: tail) value) (hc : c ≠ 'n') : Reads (readOptional item) (c :: tail) (some value) := by
  refine ⟨h.begins, fun {space rest} hspace hrest => ?_⟩
  have hread := h.read space_nil hrest
  rw [List.nil_append, List.cons_append] at hread
  rw [readOptional, h.begins.skipSpace_eq hspace, List.cons_append]
  simp [hc, hread, bind, Except.bind, pure, Except.pure]

theorem readOptional_null {item : Reader α} : Reads (readOptional item) "null".toList none := by
  have hbegins : Begins "null".toList := ⟨'n', _, rfl, rfl, by decide⟩
  refine ⟨hbegins, fun {space rest} hspace _ => ?_⟩
  rw [readOptional, hbegins.skipSpace_eq hspace]
  exact congrArg (Except.map fun read : Unit × List Char => (none, read.2)) (readWord_append ['u', 'l', 'l'] rest)

theorem ReadsMember.begins {member : α} {text : List Char} (h : ReadsMember fields name set member text) :
    Begins text := by
  obtain ⟨⟨-⟩, -, -, -⟩ := h
  exact begins_quote _

/-- The names of `seen` and of the fields to come are all different, which each step keeps. -/
theorem readNamed_inside {first : Bool} {members : List α} {inner : List Char}
    (h : Inside (ReadsMember fields name set) first members inner) {fuel : Nat} (hfuel : members.length < fuel)
    {seen : List String} (hseen : (knownNames fields (members.map name) ++ seen).Nodup) (record : σ)
    (rest : List Char) :
    readNamed fields fuel first seen record (inner ++ '\x7d' :: rest) = .ok (members.foldl set record, rest) := by
  obtain ⟨fuel, rfl⟩ := Nat.exists_eq_add_one_of_ne_zero (Nat.ne_zero_of_lt hfuel)
  have hclose : '\x7d' ∈ [']', '\x7d'] := by decide
  induction h generalizing fuel seen record with
  | close hspace =>
    simp [readNamed, nextItem?_close hclose hspace, readClose_append hclose hspace, bind, Except.bind, pure,
      Except.pure]
  | item hlead hbefore hmember hmore ih =>
    rename_i first lead before text more member members
    obtain ⟨fuel, rfl⟩ := Nat.exists_eq_add_one_of_ne_zero (Nat.ne_zero_of_lt (Nat.lt_of_succ_lt_succ hfuel))
    have hnext := nextItem?_item hclose hlead hbefore hmember.begins (more ++ '\x7d' :: rest)
    have hend := hmore.endsValue hclose rest
    obtain ⟨hname, hcolon, hspace, hvalue⟩ := hmember
    simp only [List.append_assoc, List.cons_append] at hnext ⊢
    rw [readNamed, hnext]
    simp only [bind, Except.bind, readName_append hname, readColon_append hcolon]
    cases hfind : fields.find? fun field => field.name == name member with
    | none =>
      rw [hfind] at hvalue
      obtain ⟨hvalue, hset⟩ := hvalue
      have hknown : knownNames fields ((member :: members).map name) = knownNames fields (members.map name) := by
        simp [knownNames, hfind]
      rw [hknown] at hseen
      simp only [(skipValue_isValue hvalue).read hspace hend, List.foldl_cons, hset]
      exact ih hseen record fuel (Nat.lt_of_succ_lt_succ hfuel)
    | some field =>
      rw [hfind] at hvalue
      have hknown : knownNames fields ((member :: members).map name) =
          name member :: knownNames fields (members.map name) := by
        simp [knownNames, hfind]
      rw [hknown, List.cons_append] at hseen
      have hnew : seen.contains (name member) = false := by
        have hnot := List.nodup_cons.mp hseen
        simp_all
      simp only [hnew, Bool.false_eq_true, if_false, (hvalue record).read hspace hend, List.foldl_cons]
      exact ih (List.perm_middle.nodup_iff.mpr hseen) (set record member) fuel (Nat.lt_of_succ_lt_succ hfuel)

/-- A record is read field by field, in any order, when no field comes twice. -/
theorem readRecord_container {members : List α} {text : List Char}
    (h : Container (ReadsMember fields name set) '\x7b' '\x7d' members text)
    (hnames : (knownNames fields (members.map name)).Nodup) (empty : σ) :
    Reads (readRecord fields empty) text (members.foldl set empty) := by
  have hbegins := h.begins (by decide)
  obtain ⟨inner, rfl, hinner⟩ := h.exists_inside
  refine ⟨hbegins, fun {space rest} hspace _ => ?_⟩
  have hlength := hinner.length_le
  have hfuel : members.length < (inner ++ '\x7d' :: rest).length + 1 := by
    simp only [List.length_append, List.length_cons, Bool.toNat_true] at hlength ⊢
    omega
  have hseen : (knownNames fields (members.map name) ++ []).Nodup := by rwa [List.append_nil]
  have hread := readNamed_inside hinner hfuel hseen empty rest
  rw [readRecord, hbegins.skipSpace_eq hspace]
  simpa using hread

end Records

end FlowPath.Json
