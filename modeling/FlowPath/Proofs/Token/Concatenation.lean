import FlowPath.Proofs.Token.Pieces

/-!
# Texts one after the other

The tokens of two texts, one after the other, are those of the first and then those of the second, moved to
where it stands (`tokensFrom_append`, `tokensFrom_eq_map`). The second text has to start with a character that
no lexeme goes on with, like a blank or a closing parenthesis, and all characters of the first one have to
belong to tokens. So what the first lexeme of a text is does not go by what follows the text
(`lexeme_append`).
-/

namespace FlowPath.Token

open FlowPath.Text (isBlank isDigit isWordChar startsWord)

/-! ## Where a lexeme ends -/

/-- No lexeme goes on with the character. -/
def isBoundary (c : Char) : Bool := c == ' ' || c == ')'

/-- The text is empty, or no lexeme goes on with it. -/
def StartsFresh (text : List Char) : Prop := ∀ c ∈ text.head?, isBoundary c = true

theorem of_isBoundary {c : Char} (h : isBoundary c = true) :
    isDigit c = false ∧ isWordChar c = false ∧ c ≠ '.' ∧ c ≠ 'e' ∧ c ≠ 'E' ∧ c ≠ '+' ∧ c ≠ '-' := by
  have hcases : c = ' ' ∨ c = ')' := by simpa [isBoundary] using h
  rcases hcases with rfl | rfl <;> decide +kernel

variable {text more : List Char}

/-- A lexeme with more text after it. -/
def Lexeme.followedBy (lexeme : Lexeme) (more : List Char) : Lexeme :=
  { lexeme with rest := lexeme.rest ++ more }

theorem span_append_of_fresh (text : List Char) {p : Char → Bool} (hp : ∀ c, isBoundary c = true → p c = false)
    (hmore : StartsFresh more) : (text ++ more).span p = ((text.span p).1, (text.span p).2 ++ more) := by
  rcases hspan : text.span p with ⟨front, rest⟩
  obtain ⟨hfront, rfl, hrest⟩ := of_span_eq hspan
  rw [List.append_assoc]
  refine span_append hfront fun c hc => ?_
  cases rest with
  | nil => exact hp c (hmore c hc)
  | cons d rest => exact hrest c hc

theorem splitFraction_of_ne (h : ∀ c ∈ text.head?, c ≠ '.') : splitFraction text = ([], text) := by
  unfold splitFraction
  split
  · exact absurd rfl (h '.' rfl)
  · rfl

theorem splitFraction_append (text : List Char) (hmore : StartsFresh more) :
    splitFraction (text ++ more) = ((splitFraction text).1, (splitFraction text).2 ++ more) := by
  have hdigit : ∀ c, isBoundary c = true → isDigit c = false := fun c hc => (of_isBoundary hc).1
  cases text with
  | nil => exact splitFraction_of_ne fun c hc => (of_isBoundary (hmore c hc)).2.2.1
  | cons c text =>
    by_cases hc : c = '.'
    · subst hc
      simp only [List.cons_append, splitFraction, span_append_of_fresh _ hdigit hmore]
    · have hhead (rest : List Char) : ∀ d ∈ (c :: rest).head?, d ≠ '.' := by
        rintro d ⟨⟩
        exact hc
      rw [List.cons_append, splitFraction_of_ne (hhead _), splitFraction_of_ne (hhead _), List.cons_append]

/-- The sign of an exponent. -/
def splitSign : List Char → List Char × List Char
  | '+' :: rest => (['+'], rest)
  | '-' :: rest => (['-'], rest)
  | rest => ([], rest)

theorem splitExponent_cons (mark : Char) (text : List Char) :
    splitExponent (mark :: text) =
      if mark = 'e' ∨ mark = 'E' then
        match (splitSign text).2.span isDigit with
        | ([], _) => ([], mark :: text)
        | (digits, rest) => (mark :: (splitSign text).1 ++ digits, rest)
      else ([], mark :: text) := by
  rw [splitExponent.eq_def]
  rfl

theorem splitSign_of_head (h : ∀ c ∈ text.head?, c ≠ '+' ∧ c ≠ '-') : splitSign text = ([], text) := by
  unfold splitSign
  split
  · exact absurd rfl (h '+' rfl).1
  · exact absurd rfl (h '-' rfl).2
  · rfl

theorem splitSign_append (text : List Char) (hmore : StartsFresh more) :
    splitSign (text ++ more) = ((splitSign text).1, (splitSign text).2 ++ more) := by
  cases text with
  | nil => exact splitSign_of_head fun c hc => (of_isBoundary (hmore c hc)).2.2.2.2.2
  | cons c text =>
    by_cases hsign : c = '+' ∨ c = '-'
    · rcases hsign with rfl | rfl <;> rfl
    · have hhead (rest : List Char) : ∀ d ∈ (c :: rest).head?, d ≠ '+' ∧ d ≠ '-' := by
        rintro d ⟨⟩
        exact not_or.mp hsign
      rw [List.cons_append, splitSign_of_head (hhead _), splitSign_of_head (hhead _), List.cons_append]

theorem splitExponent_append (text : List Char) (hmore : StartsFresh more) :
    splitExponent (text ++ more) = ((splitExponent text).1, (splitExponent text).2 ++ more) := by
  have hdigit : ∀ c, isBoundary c = true → isDigit c = false := fun c hc => (of_isBoundary hc).1
  cases text with
  | nil =>
    rcases more with _ | ⟨c, more⟩
    · rfl
    · obtain ⟨-, -, -, hlower, hupper, -⟩ := of_isBoundary (hmore c rfl)
      exact if_neg (not_or.mpr ⟨hlower, hupper⟩)
  | cons mark text =>
    rw [List.cons_append, splitExponent_cons, splitExponent_cons, splitSign_append text hmore,
      span_append_of_fresh _ hdigit hmore]
    split
    · rcases (splitSign text).2.span isDigit with ⟨_ | ⟨d, digits⟩, rest⟩ <;> rfl
    · rfl

theorem lexNumber_append (text : List Char) (hmore : StartsFresh more) :
    lexNumber (text ++ more) = (lexNumber text).followedBy more := by
  have hdigit : ∀ c, isBoundary c = true → isDigit c = false := fun c hc => (of_isBoundary hc).1
  simp only [lexNumber, span_append_of_fresh _ hdigit hmore, splitFraction_append _ hmore,
    splitExponent_append _ hmore, Lexeme.followedBy]

theorem lexString_append {quote : Char} (h : (lexString quote text).kind ≠ .unknown) (more : List Char) :
    lexString quote (text ++ more) = (lexString quote text).followedBy more := by
  fun_induction lexString quote text with
  | case1 => exact absurd rfl h
  | case2 text =>
    rw [List.cons_append, Piece.lexString_quote]
    rfl
  | case3 => exact absurd rfl h
  | case4 escaped text hquote ih =>
    rw [List.cons_append, List.cons_append, Piece.lexString_escaped (Ne.symm hquote), ih h]
    rfl
  | case5 c text hquote hbackslash ih =>
    rw [List.cons_append, Piece.lexString_plain hquote hbackslash, ih h]
    rfl

theorem lexWord_append (text : List Char) (hmore : StartsFresh more) :
    lexWord (text ++ more) = (lexWord text).followedBy more := by
  have hword : ∀ c, isBoundary c = true → isWordChar c = false := fun c hc => (of_isBoundary hc).2.1
  simp only [lexWord, span_append_of_fresh _ hword hmore, Lexeme.followedBy]

theorem lexSymbol_append {c : Char} (h : (lexSymbol (c :: text)).kind ≠ .unknown)
    (hmore : StartsFresh more) : lexSymbol (c :: text ++ more) = (lexSymbol (c :: text)).followedBy more := by
  have hinner : ∀ kind ∈ symbols, kind.spelling.toList.tail.all (!isBoundary ·) = true := by decide
  have hfind : symbols.find? (fun kind => kind.spelling.toList.isPrefixOf (c :: text ++ more)) =
      symbols.find? fun kind => kind.spelling.toList.isPrefixOf (c :: text) := by
    refine List.find?_congr fun kind hkind => ?_
    have hkinds := hinner kind hkind
    rcases hspelling : kind.spelling.toList with _ | ⟨first, others⟩
    · rfl
    · rw [hspelling] at hkinds
      have hothers : ∀ d ∈ more.head?, d ∉ others := by
        intro d hd hmem
        have hother := List.all_eq_true.mp hkinds d hmem
        rw [hmore d hd] at hother
        cases hother
      simp only [List.cons_append, List.isPrefixOf, Piece.isPrefixOf_append hothers]
  rcases hfound : symbols.find? fun kind => kind.spelling.toList.isPrefixOf (c :: text) with _ | kind
  · simp only [lexSymbol, hfound] at h
    exact absurd rfl h
  · have hfits : kind.spelling.toList.isPrefixOf (c :: text) = true := by simpa using List.find?_some hfound
    have hwidth : kind.spelling.length ≤ (c :: text).length :=
      String.length_toList ▸ (List.isPrefixOf_iff_prefix.mp hfits).length_le
    simp only [lexSymbol, hfind, hfound, Lexeme.followedBy, List.take_append_of_le_length hwidth,
      List.drop_append_of_le_length hwidth]

theorem startsNumber_append (c : Char) (text : List Char) (hmore : StartsFresh more) :
    startsNumber (c :: text ++ more) = startsNumber (c :: text) := by
  by_cases hc : c = '.'
  · subst hc
    rcases text with _ | ⟨d, text⟩
    · rcases more with _ | ⟨d, more⟩
      · rfl
      · exact (of_isBoundary (hmore d rfl)).1
    · rfl
  · rw [List.cons_append, Piece.startsNumber_eq hc, Piece.startsNumber_eq hc]

/-- The first lexeme of a text does not go by what follows the text. -/
theorem lexeme_append {c : Char} (h : (lexeme (c :: text)).kind ≠ .unknown) (hmore : StartsFresh more) :
    lexeme (c :: text ++ more) = (lexeme (c :: text)).followedBy more := by
  have hnumber : startsNumber (c :: (text ++ more)) = startsNumber (c :: text) :=
    startsNumber_append c text hmore
  simp only [lexeme] at h
  simp only [List.cons_append, lexeme, hnumber]
  split_ifs at h ⊢ with hstarts hquote hword
  · exact lexNumber_append (c :: text) hmore
  · rw [lexString_append h]
    rfl
  · exact lexWord_append (c :: text) hmore
  · exact lexSymbol_append h hmore

/-! ## What a lexeme takes -/

theorem splitFraction_append_eq (text : List Char) :
    (splitFraction text).1 ++ (splitFraction text).2 = text := by
  unfold splitFraction
  split
  · rename_i rest
    exact congrArg ('.' :: ·) (of_span_eq (Prod.eta (rest.span isDigit)).symm).2.1.symm
  · rfl

theorem splitSign_append_eq (text : List Char) : (splitSign text).1 ++ (splitSign text).2 = text := by
  unfold splitSign
  split <;> rfl

theorem splitExponent_append_eq (text : List Char) :
    (splitExponent text).1 ++ (splitExponent text).2 = text := by
  cases text with
  | nil => rfl
  | cons mark text =>
    rw [splitExponent_cons]
    split
    · rcases hspan : (splitSign text).2.span isDigit with ⟨_ | ⟨d, digits⟩, rest⟩
      · rfl
      · obtain ⟨-, hrest, -⟩ := of_span_eq hspan
        dsimp only
        rw [List.append_assoc, List.cons_append, ← hrest, splitSign_append_eq]
    · rfl

theorem lexString_append_eq (quote : Char) (text : List Char) :
    (lexString quote text).taken ++ (lexString quote text).rest = text := by
  fun_induction lexString quote text with
  | case1 | case2 | case3 => rfl
  | case4 escaped text _ ih => exact congrArg (_ :: escaped :: ·) ih
  | case5 c text _ _ ih => exact congrArg (c :: ·) ih

theorem lexNumber_append_eq (text : List Char) : (lexNumber text).taken ++ (lexNumber text).rest = text := by
  obtain ⟨-, hwhole, -⟩ := of_span_eq (Prod.eta (text.span isDigit)).symm
  simp only [lexNumber, List.append_assoc]
  rw [splitExponent_append_eq, splitFraction_append_eq, ← hwhole]

theorem lexSymbol_append_eq (text : List Char) : (lexSymbol text).taken ++ (lexSymbol text).rest = text := by
  unfold lexSymbol
  split <;> exact List.take_append_drop _ _

/-- A lexeme takes a part of the text and leaves the rest. -/
theorem lexeme_append_eq (text : List Char) : (lexeme text).taken ++ (lexeme text).rest = text := by
  cases text with
  | nil => rfl
  | cons c text =>
    simp only [lexeme]
    split_ifs
    · exact lexNumber_append_eq (c :: text)
    · exact congrArg (c :: ·) (lexString_append_eq c text)
    · exact (of_span_eq (Prod.eta ((c :: text).span isWordChar)).symm).2.1.symm
    · exact lexSymbol_append_eq (c :: text)

theorem taken_lexNumber_ne_nil {c : Char} {text : List Char} (h : startsNumber (c :: text) = true) :
    (lexNumber (c :: text)).taken ≠ [] := by
  intro hnil
  simp only [lexNumber, List.append_eq_nil_iff] at hnil
  obtain ⟨⟨hwhole, hfraction⟩, -⟩ := hnil
  cases hc : isDigit c with
  | true => simp [List.span_eq_takeWhile_dropWhile, hc] at hwhole
  | false =>
    have hlength := length_splitFraction h hc
    simp only [List.span_eq_takeWhile_dropWhile, List.dropWhile_cons, hc] at hfraction
    rw [if_neg Bool.false_ne_true] at hfraction
    rw [hfraction] at hlength
    exact absurd hlength (by decide)

theorem taken_lexSymbol_ne_nil (c : Char) (text : List Char) : (lexSymbol (c :: text)).taken ≠ [] := by
  have hspelling : ∀ kind ∈ symbols, kind.spelling.length ≠ 0 := by decide
  unfold lexSymbol
  split
  · rename_i kind hfound
    have hwidth := hspelling kind (List.mem_of_find?_eq_some hfound)
    simpa using hwidth
  · simp

theorem taken_lexeme_ne_nil (c : Char) (text : List Char) : (lexeme (c :: text)).taken ≠ [] := by
  simp only [lexeme]
  split_ifs with hnumber hquote hword
  · exact taken_lexNumber_ne_nil hnumber
  · exact List.cons_ne_nil _ _
  · simp [lexWord, List.span_eq_takeWhile_dropWhile, Text.isWordChar_of_startsWord hword]
  · exact taken_lexSymbol_ne_nil c text

theorem length_rest_lt (c : Char) (text : List Char) :
    (lexeme (c :: text)).rest.length < (c :: text).length := by
  have hlength := congrArg List.length (lexeme_append_eq (c :: text))
  have htaken := List.length_pos_of_ne_nil (taken_lexeme_ne_nil c text)
  rw [List.length_append] at hlength
  omega

/-- A text is empty, or it starts with a blank or with a lexeme. -/
theorem lexeme_induction {motive : List Char → Prop} (nil : motive [])
    (blank : ∀ c text, isBlank c = true → motive text → motive (c :: text))
    (lexeme : ∀ c text, isBlank c = false → motive (lexeme (c :: text)).rest → motive (c :: text))
    (text : List Char) : motive text := by
  induction hlength : text.length using Nat.strong_induction_on generalizing text with
  | _ length ih =>
    subst hlength
    cases text with
    | nil => exact nil
    | cons c text =>
      cases hc : isBlank c with
      | true => exact blank c text hc (ih text.length (Nat.lt_succ_self _) text rfl)
      | false => exact lexeme c text hc (ih _ (length_rest_lt c text) _ rfl)

/-! ## Tokens from an offset on -/

/-- The tokens of a text that stands at the offset, but for its end. -/
def tokensFrom (offset : Nat) (text : List Char) : List Token :=
  (scanFrom (text.length + 1) offset text).dropLast

theorem body_eq_tokensFrom (text : String) : body text = tokensFrom 0 text.toList := rfl

@[simp] theorem byteSize_nil : byteSize [] = 0 := rfl

@[simp] theorem byteSize_cons (c : Char) (text : List Char) :
    byteSize (c :: text) = c.utf8Size + byteSize text := rfl

theorem byteSize_append (text more : List Char) : byteSize (text ++ more) = byteSize text + byteSize more := by
  induction text with
  | nil => rw [List.nil_append, byteSize_nil, Nat.zero_add]
  | cons c text ih => rw [List.cons_append, byteSize_cons, byteSize_cons, ih, Nat.add_assoc]

theorem scanFrom_ne_nil (fuel offset : Nat) (text : List Char) : scanFrom fuel offset text ≠ [] := by
  obtain ⟨front, last, h, -⟩ := scanFrom_eq fuel offset text
  rw [h]
  exact List.concat_ne_nil last front

/-- A blank in front moves everything after it. -/
theorem scanFrom_blank {c : Char} (hc : isBlank c = true) (fuel offset : Nat) (text : List Char) :
    scanFrom (fuel + 1) offset (c :: text) = scanFrom (fuel + 1) (offset + c.utf8Size) text := by
  have hspan : (c :: text).span isBlank = (c :: (text.span isBlank).1, (text.span isBlank).2) := by
    simp [List.span_eq_takeWhile_dropWhile, hc]
  simp only [scanFrom, hspan, byteSize_cons, Nat.add_assoc]

theorem scanFrom_lexeme {c : Char} (hc : isBlank c = false) (fuel offset : Nat) (text : List Char) :
    scanFrom (fuel + 1) offset (c :: text) =
      (lexeme (c :: text)).token offset ::
        scanFrom fuel (offset + byteSize (lexeme (c :: text)).taken) (lexeme (c :: text)).rest := by
  have hspan : (c :: text).span isBlank = ([], c :: text) := by
    simp [List.span_eq_takeWhile_dropWhile, hc]
  simp only [scanFrom, hspan, byteSize_nil, Nat.add_zero]
  rfl

/-- There is always fuel for all tokens of a text. -/
theorem scanFrom_congr_fuel {fuel fuel' : Nat} (offset : Nat) {text : List Char} (h : text.length ≤ fuel)
    (h' : text.length ≤ fuel') : scanFrom (fuel + 1) offset text = scanFrom (fuel' + 1) offset text := by
  induction text using lexeme_induction generalizing offset fuel fuel' with
  | nil => rfl
  | blank c text hc ih =>
    rw [scanFrom_blank hc, scanFrom_blank hc]
    exact ih _ (Nat.le_of_succ_le h) (Nat.le_of_succ_le h')
  | lexeme c text hc ih =>
    have hrest := length_rest_lt c text
    obtain ⟨fuel, rfl⟩ := Nat.exists_eq_succ_of_ne_zero (Nat.ne_zero_of_lt h)
    obtain ⟨fuel', rfl⟩ := Nat.exists_eq_succ_of_ne_zero (Nat.ne_zero_of_lt h')
    rw [scanFrom_lexeme hc, scanFrom_lexeme hc, ih _ (Nat.le_of_lt_succ (Nat.lt_of_lt_of_le hrest h))
      (Nat.le_of_lt_succ (Nat.lt_of_lt_of_le hrest h'))]

theorem tokensFrom_blank {c : Char} (hc : isBlank c = true) (offset : Nat) (text : List Char) :
    tokensFrom offset (c :: text) = tokensFrom (offset + c.utf8Size) text := by
  rw [tokensFrom, List.length_cons, scanFrom_blank hc, tokensFrom,
    scanFrom_congr_fuel _ (Nat.le_succ _) (Nat.le_refl _)]

theorem tokensFrom_lexeme {c : Char} (hc : isBlank c = false) (offset : Nat) (text : List Char) :
    tokensFrom offset (c :: text) =
      (lexeme (c :: text)).token offset ::
        tokensFrom (offset + byteSize (lexeme (c :: text)).taken) (lexeme (c :: text)).rest := by
  have hrest := Nat.le_of_lt_succ (length_rest_lt c text)
  rw [tokensFrom, scanFrom_lexeme hc, List.dropLast_cons_of_ne_nil (scanFrom_ne_nil _ _ _), tokensFrom,
    List.length_cons, scanFrom_congr_fuel _ hrest (Nat.le_refl _)]

/-- The tokens of two texts, one after the other. -/
theorem tokensFrom_append {offset : Nat} {text more : List Char}
    (hknown : ∀ token ∈ tokensFrom offset text, token.kind ≠ .unknown) (hmore : StartsFresh more) :
    tokensFrom offset (text ++ more) = tokensFrom offset text ++ tokensFrom (offset + byteSize text) more := by
  induction text using lexeme_induction generalizing offset with
  | nil => rfl
  | blank c text hc ih =>
    rw [tokensFrom_blank hc] at hknown
    rw [List.cons_append, tokensFrom_blank hc, tokensFrom_blank hc, ih hknown, byteSize_cons, Nat.add_assoc]
  | lexeme c text hc ih =>
    rw [tokensFrom_lexeme hc] at hknown
    obtain ⟨hfirst, hrest⟩ := List.forall_mem_cons.mp hknown
    have hlexeme := lexeme_append hfirst hmore
    have hsize := byteSize_append (lexeme (c :: text)).taken (lexeme (c :: text)).rest
    rw [lexeme_append_eq] at hsize
    rw [List.cons_append] at hlexeme ⊢
    rw [tokensFrom_lexeme hc, tokensFrom_lexeme hc, hlexeme, hsize, ← Nat.add_assoc, List.cons_append,
      ← ih hrest]
    rfl

/-- The token, so much further on in the text. -/
def move (distance : Nat) (token : Token) : Token :=
  { token with start := token.start + distance, stop := token.stop + distance }

/-- The tokens of a text go with the text. -/
theorem tokensFrom_add (offset distance : Nat) (text : List Char) :
    tokensFrom (offset + distance) text = (tokensFrom offset text).map (move distance) := by
  induction text using lexeme_induction generalizing offset with
  | nil => rfl
  | blank c text hc ih =>
    rw [tokensFrom_blank hc, tokensFrom_blank hc, ← ih, Nat.add_right_comm]
  | lexeme c text hc ih =>
    have hmoved : (lexeme (c :: text)).token (offset + distance) =
        move distance ((lexeme (c :: text)).token offset) := by
      simp only [Lexeme.token, move, Nat.add_right_comm]
    rw [tokensFrom_lexeme hc, tokensFrom_lexeme hc, List.map_cons, ← ih, hmoved, Nat.add_right_comm]

theorem tokensFrom_eq_map (offset : Nat) (text : String) :
    tokensFrom offset text.toList = (body text).map (move offset) := by
  rw [body_eq_tokensFrom, ← tokensFrom_add, Nat.zero_add]

/-! ## Symbols in a text -/

/-- A symbol with a blank or nothing after it. -/
theorem exists_tokensFrom_symbol {kind : Kind} (hkind : kind ∈ symbols) (offset : Nat) {rest : List Char}
    (hrest : ∀ c ∈ rest.head?, c = ' ') :
    ∃ (symbol : Token) (stop : Nat), symbol.kind = kind ∧
      tokensFrom offset (kind.spelling.toList ++ rest) = symbol :: tokensFrom stop rest := by
  obtain ⟨c, cs, hspelling, hc⟩ := (Piece.stands_symbol hkind).first
  have htext : kind.spelling.toList = c :: cs := hspelling
  have hlexeme := Piece.lexeme_symbol hkind hrest
  rw [htext, List.cons_append] at hlexeme ⊢
  rw [tokensFrom_lexeme hc, hlexeme]
  exact ⟨_, _, rfl, rfl⟩

theorem exists_tokensFrom_openParen (offset : Nat) (rest : List Char) :
    ∃ (opening : Token) (stop : Nat), opening.kind = .openParen ∧
      tokensFrom offset ('(' :: rest) = opening :: tokensFrom stop rest := by
  have hword : startsWord '(' = false := by decide +kernel
  have hlexeme : lexeme ('(' :: rest) = { kind := .openParen, taken := ['('], rest } := by
    have hnumber : startsNumber ('(' :: rest) = false := Piece.startsNumber_eq (by decide) rest
    simp only [lexeme, hnumber, hword]
    rfl
  rw [tokensFrom_lexeme (by decide), hlexeme]
  exact ⟨_, _, rfl, rfl⟩

end FlowPath.Token
