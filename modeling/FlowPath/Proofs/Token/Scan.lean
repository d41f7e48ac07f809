import FlowPath.Number.Decimal
import FlowPath.Token.Scan
import Mathlib.Data.List.TakeDrop

/-!
# The tokens of a text

A scanned text ends with its only end token, and every token before that is the first lexeme of what was
left of the text (`scan_eq`). A lexeme of kind `number` is always a numeral (`exists_numeral`): the parts
that the scanner puts together are the parts that `Decimal.parse?` looks for.
-/

namespace FlowPath.Token

open FlowPath.Text (isBlank isDigit)

/-! ## Spans -/

theorem of_span_eq {p : Char → Bool} {text front rest : List Char} (h : text.span p = (front, rest)) :
    (∀ c ∈ front, p c = true) ∧ text = front ++ rest ∧ ∀ c ∈ rest.head?, p c = false := by
  rw [List.span_eq_takeWhile_dropWhile, Prod.mk.injEq] at h
  obtain ⟨rfl, rfl⟩ := h
  refine ⟨List.all_eq_true.mp List.all_takeWhile, List.takeWhile_append_dropWhile.symm, fun c hc => ?_⟩
  have hhead := List.head?_dropWhile_not p text
  rwa [Option.mem_def.mp hc] at hhead

theorem span_append {p : Char → Bool} {front rest : List Char} (hfront : ∀ c ∈ front, p c = true)
    (hrest : ∀ c ∈ rest.head?, p c = false) : (front ++ rest).span p = (front, rest) := by
  rw [List.span_eq_takeWhile_dropWhile, List.takeWhile_append_of_pos hfront,
    List.dropWhile_append_of_pos hfront]
  cases rest with
  | nil => simp
  | cons c rest => simp [hrest c rfl]

/-! ## Kinds of lexemes -/

theorem kind_lexString (quote : Char) (text : List Char) :
    (lexString quote text).kind = .string ∨ (lexString quote text).kind = .unknown := by
  fun_induction lexString quote text with
  | case1 => exact .inr rfl
  | case2 => exact .inl rfl
  | case3 => exact .inr rfl
  | case4 _ _ _ ih => exact ih
  | case5 _ _ _ _ ih => exact ih

theorem wordKind_mem (word : List Char) : wordKind word ∈ .identifier :: words := by
  unfold wordKind
  cases hfind : words.find? fun kind => kind.spelling.toList == word with
  | none => exact List.mem_cons_self
  | some kind => exact List.mem_cons_of_mem _ (List.mem_of_find?_eq_some hfind)

theorem kind_lexSymbol_mem (text : List Char) : (lexSymbol text).kind ∈ .unknown :: symbols := by
  unfold lexSymbol
  cases hfind : symbols.find? fun kind => kind.spelling.toList.isPrefixOf text with
  | none => exact List.mem_cons_self
  | some kind => exact List.mem_cons_of_mem _ (List.mem_of_find?_eq_some hfind)

/-- A lexeme is a number that starts like one, or neither a number nor the end. -/
theorem lexeme_cases (c : Char) (rest : List Char) :
    (startsNumber (c :: rest) = true ∧ lexeme (c :: rest) = lexNumber (c :: rest)) ∨
      ((lexeme (c :: rest)).kind ≠ .number ∧ (lexeme (c :: rest)).kind ≠ .endOfText) := by
  have hword : ∀ kind ∈ Kind.identifier :: words, kind ≠ .number ∧ kind ≠ .endOfText := by decide
  have hsymbol : ∀ kind ∈ Kind.unknown :: symbols, kind ≠ .number ∧ kind ≠ .endOfText := by decide
  simp only [lexeme]
  split
  case isTrue hstarts => exact .inl ⟨hstarts, rfl⟩
  case isFalse =>
    refine .inr ?_
    split
    · change (lexString c rest).kind ≠ _ ∧ (lexString c rest).kind ≠ _
      rcases kind_lexString c rest with h | h <;> rw [h] <;> decide
    · split
      · exact hword _ (wordKind_mem _)
      · exact hsymbol _ (kind_lexSymbol_mem _)

theorem kind_lexeme_ne_endOfText (c : Char) (rest : List Char) : (lexeme (c :: rest)).kind ≠ .endOfText := by
  rcases lexeme_cases c rest with ⟨-, h⟩ | h
  · rw [h]
    exact fun h => nomatch h
  · exact h.2

/-! ## Numerals -/

/-- An exponent as it is written, or nothing. -/
def IsExponent (text : List Char) : Prop :=
  text = [] ∨ ∃ mark sign digits, (mark = 'e' ∨ mark = 'E') ∧ sign ∈ [[], ['+'], ['-']] ∧ digits ≠ [] ∧
    (∀ c ∈ digits, isDigit c = true) ∧ text = mark :: (sign ++ digits)

theorem isExponent_splitExponent (text : List Char) : IsExponent (splitExponent text).1 := by
  cases text with
  | nil => exact .inl rfl
  | cons mark text =>
    simp only [splitExponent]
    split
    case isFalse => exact .inl rfl
    case isTrue hmark =>
      split
      case h_1 => exact .inl rfl
      case h_2 digits rest hne hspan =>
        refine .inr ⟨mark, _, digits, hmark, ?_, hne, (of_span_eq hspan).1, rfl⟩
        split <;> simp

theorem not_isDigit_of_isExponent {text : List Char} (h : IsExponent text) :
    ∀ c ∈ text.head?, isDigit c = false := by
  rcases h with rfl | ⟨mark, _, _, rfl | rfl, -, -, -, rfl⟩
  · exact nofun
  · rintro c ⟨⟩
    rfl
  · rintro c ⟨⟩
    rfl

theorem splitSign_of_ne {c : Char} {rest : List Char} (hminus : c ≠ '-') (hplus : c ≠ '+') :
    Decimal.splitSign (c :: rest) = (false, c :: rest) := by
  unfold Decimal.splitSign
  split
  case h_1 h => exact absurd (List.cons.inj h).1 hminus
  case h_2 h => exact absurd (List.cons.inj h).1 hplus
  case h_3 => rfl

theorem ne_of_isDigit {c d : Char} (hc : isDigit c = true) (hd : isDigit d = false) : c ≠ d := by
  rintro rfl
  rw [hc] at hd
  cases hd

theorem exists_exponent? {text : List Char} (h : IsExponent text) :
    ∃ exponent, Decimal.exponent? text = some exponent := by
  rcases h with rfl | ⟨mark, sign, digits, hmark, hsign, hne, hdigits, rfl⟩
  · exact ⟨0, rfl⟩
  · obtain ⟨d, ds, rfl⟩ := List.exists_cons_of_ne_nil hne
    have hd : isDigit d = true := hdigits d List.mem_cons_self
    have hsplit : (Decimal.splitSign (sign ++ d :: ds)).2 = d :: ds := by
      simp only [List.mem_cons, List.not_mem_nil, or_false] at hsign
      rcases hsign with rfl | rfl | rfl
      · rw [List.nil_append, splitSign_of_ne (ne_of_isDigit hd rfl) (ne_of_isDigit hd rfl)]
      · rfl
      · rfl
    have hfits : ((d :: ds).isEmpty || !(d :: ds).all isDigit) = false := by
      simpa using hdigits
    simp only [Decimal.exponent?, if_pos hmark, hsplit, hfits]
    exact ⟨_, rfl⟩

/-- A fraction as it is written, or nothing. -/
def IsFraction (text : List Char) : Prop :=
  text = [] ∨ ∃ digits, (∀ c ∈ digits, isDigit c = true) ∧ text = '.' :: digits

theorem isFraction_splitFraction (text : List Char) : IsFraction (splitFraction text).1 := by
  unfold splitFraction
  split
  case h_1 rest =>
    rcases hspan : rest.span isDigit with ⟨digits, after⟩
    exact .inr ⟨digits, (of_span_eq hspan).1, rfl⟩
  case h_2 => exact .inl rfl

/-- A number that does not start with a digit has one after its point. -/
theorem length_splitFraction {c : Char} {rest : List Char} (hstarts : startsNumber (c :: rest) = true)
    (hc : isDigit c = false) : 2 ≤ (splitFraction (c :: rest)).1.length := by
  unfold startsNumber at hstarts
  split at hstarts
  case h_1 next more heq =>
    obtain ⟨rfl, rfl⟩ := List.cons.inj heq
    simp [splitFraction, List.span_eq_takeWhile_dropWhile, hstarts]
  case h_2 heq =>
    obtain ⟨rfl, rfl⟩ := List.cons.inj heq
    rw [hc] at hstarts
    cases hstarts
  case h_3 => cases hstarts

/-- What is written like a numeral starts with no sign. -/
theorem splitSign_parts {whole fraction : List Char} (hwhole : ∀ c ∈ whole, isDigit c = true)
    (hfraction : IsFraction fraction) (hdigits : whole ≠ [] ∨ 2 ≤ fraction.length) (exponent : List Char) :
    Decimal.splitSign (whole ++ (fraction ++ exponent)) = (false, whole ++ (fraction ++ exponent)) := by
  cases whole with
  | cons d ds =>
    have hd := hwhole d List.mem_cons_self
    exact splitSign_of_ne (ne_of_isDigit hd rfl) (ne_of_isDigit hd rfl)
  | nil =>
    rcases hfraction with rfl | ⟨digits, -, rfl⟩
    · exact absurd hdigits (by simp)
    · rfl

/-- What is written like a numeral, with a digit in it, is one. -/
theorem exists_parse? {whole fraction exponent : List Char} (hwhole : ∀ c ∈ whole, isDigit c = true)
    (hfraction : IsFraction fraction) (hexponent : IsExponent exponent)
    (hdigits : whole ≠ [] ∨ 2 ≤ fraction.length) :
    ∃ numeral, Decimal.parse? (whole ++ (fraction ++ exponent)) = some numeral := by
  have hsign := splitSign_parts hwhole hfraction hdigits exponent
  have hafter : ∀ c ∈ (fraction ++ exponent).head?, isDigit c = false := by
    rcases hfraction with rfl | ⟨digits, -, rfl⟩
    · exact not_isDigit_of_isExponent hexponent
    · rintro c ⟨⟩
      rfl
  obtain ⟨e, he⟩ := exists_exponent? hexponent
  have hparts : ∃ digits, Decimal.splitFraction (fraction ++ exponent) = (digits, exponent) ∧
      (whole.isEmpty && digits.isEmpty) = false := by
    rcases hfraction with rfl | ⟨digits, hall, rfl⟩
    · refine ⟨[], ?_, by simpa using hdigits⟩
      rcases hexponent with rfl | ⟨mark, _, _, rfl | rfl, -, -, -, rfl⟩ <;> rfl
    · refine ⟨digits, span_append hall (not_isDigit_of_isExponent hexponent), ?_⟩
      rcases hdigits with h | h
      · simp [h]
      · cases digits with
        | nil => exact absurd h (by simp)
        | cons => simp
  obtain ⟨digits, hsplit, hsome⟩ := hparts
  simp only [Decimal.parse?, hsign, span_append hwhole hafter, hsplit, hsome, he]
  exact ⟨_, rfl⟩

/-- A number is scanned as digits, a fraction and an exponent, of which the first two hold a digit. -/
theorem exists_taken_eq {c : Char} {rest : List Char} (h : (lexeme (c :: rest)).kind = .number) :
    ∃ whole fraction exponent, (∀ c ∈ whole, isDigit c = true) ∧ IsFraction fraction ∧ IsExponent exponent ∧
      (whole ≠ [] ∨ 2 ≤ fraction.length) ∧
      (lexeme (c :: rest)).taken = whole ++ (fraction ++ exponent) := by
  rcases lexeme_cases c rest with ⟨hstarts, hlexeme⟩ | hother
  · rw [hlexeme]
    rcases hspan : (c :: rest).span isDigit with ⟨whole, afterWhole⟩
    obtain ⟨hwhole, htext, hafter⟩ := of_span_eq hspan
    have hdigits : whole ≠ [] ∨ 2 ≤ (splitFraction afterWhole).1.length := by
      refine or_iff_not_imp_left.mpr fun hnil => ?_
      obtain rfl : whole = [] := not_not.mp hnil
      obtain rfl : c :: rest = afterWhole := htext
      exact length_splitFraction hstarts (hafter c rfl)
    refine ⟨whole, _, _, hwhole, isFraction_splitFraction afterWhole,
      isExponent_splitExponent (splitFraction afterWhole).2, hdigits, ?_⟩
    simp only [lexNumber, hspan, List.append_assoc]
  · exact absurd h hother.1

theorem exists_numeral {c : Char} {rest : List Char} (h : (lexeme (c :: rest)).kind = .number) :
    ∃ numeral, Decimal.parse? (lexeme (c :: rest)).taken = some numeral := by
  obtain ⟨whole, fraction, exponent, hwhole, hfraction, hexponent, hdigits, htaken⟩ := exists_taken_eq h
  rw [htaken]
  exact exists_parse? hwhole hfraction hexponent hdigits

/-! ## Scanned texts -/

theorem scanFrom_eq (fuel offset : Nat) (text : List Char) :
    ∃ body last, scanFrom fuel offset text = body ++ [last] ∧ last.kind = .endOfText ∧
      ∀ token ∈ body, ∃ c rest start, token = (lexeme (c :: rest)).token start := by
  induction fuel generalizing offset text with
  | zero => exact ⟨[], _, rfl, rfl, nofun⟩
  | succ fuel ih =>
    simp only [scanFrom]
    split
    case h_1 hnil => exact ⟨[], _, rfl, by rw [hnil]; rfl, nofun⟩
    case h_2 c rest hcons =>
      rw [hcons]
      obtain ⟨body, last, hbody, hlast, hlexemes⟩ := ih (((lexeme (c :: rest)).token
        (offset + byteSize (text.span isBlank).1)).stop) (lexeme (c :: rest)).rest
      exact ⟨_ :: body, last, by rw [hbody, List.cons_append], hlast,
        List.forall_mem_cons.mpr ⟨⟨c, rest, _, rfl⟩, hlexemes⟩⟩

/-- The tokens of a text but for its end. -/
def body (text : String) : List Token := (scan text).dropLast

theorem scan_eq (text : String) :
    ∃ last, last.kind = .endOfText ∧ scan text = body text ++ [last] ∧
      ∀ token ∈ body text, ∃ c rest start, token = (lexeme (c :: rest)).token start := by
  obtain ⟨front, last, hscan, hlast, hlexemes⟩ := scanFrom_eq (text.toList.length + 1) 0 text.toList
  have hbody : body text = front := by rw [body, scan, hscan, List.dropLast_concat]
  exact ⟨last, hlast, by rw [hbody, scan, hscan], hbody ▸ hlexemes⟩

theorem kind_ne_endOfText_of_mem_body {text : String} {token : Token} (h : token ∈ body text) :
    token.kind ≠ .endOfText := by
  obtain ⟨-, -, -, hlexemes⟩ := scan_eq text
  obtain ⟨c, rest, start, rfl⟩ := hlexemes token h
  exact kind_lexeme_ne_endOfText c rest

/-- Every token of kind `number` is a numeral. -/
theorem exists_numeral_of_mem_body {text : String} {token : Token} (h : token ∈ body text)
    (hkind : token.kind = .number) : ∃ numeral, Decimal.parse? token.text.toList = some numeral := by
  obtain ⟨-, -, -, hlexemes⟩ := scan_eq text
  obtain ⟨c, rest, start, rfl⟩ := hlexemes token h
  obtain ⟨numeral, hnumeral⟩ := exists_numeral hkind
  exact ⟨numeral, by rw [← hnumeral, Lexeme.token, String.toList_ofList]⟩

/-- The tokens before the first end token are all tokens of the text. -/
theorem body_eq_of_scan_eq {text : String} {tokens rest : List Token} {last : Token}
    (h : scan text = tokens ++ last :: rest) (hlast : last.kind = .endOfText) : body text = tokens := by
  obtain ⟨last', -, hscan, -⟩ := scan_eq text
  rw [hscan] at h
  rcases List.eq_nil_or_concat rest with rfl | ⟨front, final, rfl⟩
  · exact (List.append_inj' h rfl).1
  · have hmem : last ∈ body text := by
      rw [List.concat_eq_append, ← List.cons_append, ← List.append_assoc] at h
      rw [(List.append_inj' h rfl).1]
      simp
    exact absurd hlast (kind_ne_endOfText_of_mem_body hmem)

end FlowPath.Token
