import FlowPath.Proofs.Token.Pieces
import FlowPath.Value.Basic

/-!
# Numerals

A numeral is written as digits with an optional fraction, or as a point and digits, and an optional exponent
comes after either (`Decimal.IsNumeral`). Reading accepts numerals, with or without a sign, and nothing else
(`Decimal.isSome_parse?_iff`). Every number that is scanned is a numeral (`Token.isNumeral_of_mem_scan`). A text
that is one converts to the number that it writes (`Value.numberOfText_of_isNumeral`): it has no blanks that
trimming could take off, and it is none of the words that have a meaning of their own.
-/

namespace FlowPath

open FlowPath.Text (isBlank isDigit isLetter)
open Token (IsExponent IsFraction)

namespace Decimal

/-- How numerals are written. -/
inductive IsNumeral : List Char → Prop where
  | whole {digits fraction exponent : List Char} (hne : digits ≠ []) (hdigits : ∀ c ∈ digits, isDigit c = true)
      (hfraction : IsFraction fraction) (hexponent : IsExponent exponent) :
      IsNumeral (digits ++ (fraction ++ exponent))
  | point {digits exponent : List Char} (hne : digits ≠ []) (hdigits : ∀ c ∈ digits, isDigit c = true)
      (hexponent : IsExponent exponent) : IsNumeral ('.' :: (digits ++ exponent))

variable {text : List Char}

/-- A numeral in parts: some digits, a fraction and an exponent, of which the first two hold a digit. -/
theorem isNumeral_iff_parts :
    IsNumeral text ↔ ∃ whole fraction exponent, (∀ c ∈ whole, isDigit c = true) ∧ IsFraction fraction ∧
      IsExponent exponent ∧ (whole ≠ [] ∨ 2 ≤ fraction.length) ∧ text = whole ++ (fraction ++ exponent) := by
  constructor
  · intro h
    cases h with
    | whole hne hdigits hfraction hexponent =>
      exact ⟨_, _, _, hdigits, hfraction, hexponent, .inl hne, rfl⟩
    | @point digits exponent hne hdigits hexponent =>
      refine ⟨[], '.' :: digits, exponent, List.forall_mem_nil _, .inr ⟨digits, hdigits, rfl⟩, hexponent,
        .inr ?_, rfl⟩
      exact Nat.succ_le_succ (List.length_pos_iff.mpr hne)
  · rintro ⟨whole, fraction, exponent, hwhole, hfraction, hexponent, hdigits, rfl⟩
    by_cases hne : whole = []
    · obtain rfl | ⟨digits, hall, rfl⟩ := hfraction
      · simp [hne] at hdigits
      · subst hne
        refine .point ?_ hall hexponent
        rintro rfl
        simp at hdigits
    · exact .whole hne hwhole hfraction hexponent

/-! ## Reading -/

theorem IsNumeral.splitSign_eq (h : IsNumeral text) : splitSign text = (false, text) := by
  obtain ⟨whole, fraction, exponent, hwhole, hfraction, -, hdigits, rfl⟩ := isNumeral_iff_parts.mp h
  exact Token.splitSign_parts hwhole hfraction hdigits exponent

theorem IsNumeral.exists_parse? (h : IsNumeral text) : ∃ numeral, parse? text = some numeral := by
  obtain ⟨whole, fraction, exponent, hwhole, hfraction, hexponent, hdigits, rfl⟩ := isNumeral_iff_parts.mp h
  exact Token.exists_parse? hwhole hfraction hexponent hdigits

theorem exists_sign (text : List Char) :
    ∃ sign ∈ [[], ['+'], ['-']], text = sign ++ (splitSign text).2 := by
  unfold splitSign
  split
  · exact ⟨['-'], by simp, rfl⟩
  · exact ⟨['+'], by simp, rfl⟩
  · exact ⟨[], by simp, rfl⟩

theorem isExponent_of_exponent? {exponent : Int} (h : exponent? text = some exponent) : IsExponent text := by
  cases text with
  | nil => exact .inl rfl
  | cons mark rest =>
    simp only [exponent?] at h
    split at h
    case isFalse => cases h
    case isTrue hmark =>
      obtain ⟨sign, hsign, hrest⟩ := exists_sign rest
      split at h
      case isTrue => cases h
      case isFalse hdigits =>
        simp only [Bool.or_eq_true, List.isEmpty_iff, Bool.not_eq_true', not_or, Bool.not_eq_false,
          List.all_eq_true] at hdigits
        exact .inr ⟨mark, sign, _, hmark, hsign, hdigits.1, hdigits.2, by rw [← hrest]⟩

theorem exists_fraction {digits rest : List Char} (h : splitFraction text = (digits, rest)) :
    ∃ fraction, IsFraction fraction ∧ text = fraction ++ rest ∧ (digits ≠ [] → 2 ≤ fraction.length) := by
  unfold splitFraction at h
  split at h
  · obtain ⟨hdigits, rfl, -⟩ := Token.of_span_eq h
    exact ⟨'.' :: digits, .inr ⟨digits, hdigits, rfl⟩, rfl,
      fun hne => Nat.succ_le_succ (List.length_pos_iff.mpr hne)⟩
  · cases h
    exact ⟨[], .inl rfl, rfl, fun hne => absurd rfl hne⟩

theorem isNumeral_of_parse? {numeral : Decimal} (h : parse? text = some numeral) :
    IsNumeral (splitSign text).2 := by
  rcases hspan : (splitSign text).2.span isDigit with ⟨whole, afterWhole⟩
  rcases hsplit : splitFraction afterWhole with ⟨digits, afterFraction⟩
  obtain ⟨hwhole, htext, -⟩ := Token.of_span_eq hspan
  obtain ⟨fraction, hfraction, hafter, hlength⟩ := exists_fraction hsplit
  simp only [parse?, hspan, hsplit] at h
  split at h
  case isTrue => cases h
  case isFalse hdigits =>
    obtain ⟨exponent, hexponent, -⟩ := Option.map_eq_some_iff.mp h
    refine isNumeral_iff_parts.mpr ⟨whole, fraction, afterFraction, hwhole, hfraction,
      isExponent_of_exponent? hexponent, ?_, by rw [htext, hafter]⟩
    rw [Bool.and_eq_true, not_and_or, List.isEmpty_iff, List.isEmpty_iff] at hdigits
    exact hdigits.imp_right hlength

/-- With a sign in front a text can be read as well as without it. -/
theorem isSome_parse?_append {sign : List Char} (hsign : sign ∈ [[], ['+'], ['-']])
    (htext : splitSign text = (false, text)) : (parse? (sign ++ text)).isSome = (parse? text).isSome := by
  have hrest : ∃ negative, splitSign (sign ++ text) = (negative, text) := by
    simp only [List.mem_cons, List.not_mem_nil, or_false] at hsign
    rcases hsign with rfl | rfl | rfl
    · exact ⟨false, htext⟩
    · exact ⟨false, rfl⟩
    · exact ⟨true, rfl⟩
  obtain ⟨negative, hrest⟩ := hrest
  simp only [parse?, hrest, htext]
  split
  · rfl
  · rw [Option.isSome_map, Option.isSome_map]

/-- Reading accepts numerals with an optional sign, and nothing else. -/
theorem isSome_parse?_iff :
    (parse? text).isSome = true ↔
      ∃ sign digits, sign ∈ [[], ['+'], ['-']] ∧ IsNumeral digits ∧ text = sign ++ digits := by
  constructor
  · intro h
    obtain ⟨numeral, hparse⟩ := Option.isSome_iff_exists.mp h
    obtain ⟨sign, hsign, htext⟩ := exists_sign text
    exact ⟨sign, _, hsign, isNumeral_of_parse? hparse, htext⟩
  · rintro ⟨sign, digits, hsign, hdigits, rfl⟩
    rw [isSome_parse?_append hsign hdigits.splitSign_eq]
    exact Option.isSome_iff_exists.mpr hdigits.exists_parse?

/-! ## Characters -/

/-- The characters of numerals that are no digits. -/
def marks : List Char := ['.', 'e', 'E', '+', '-']

theorem IsNumeral.isDigit_or_mem_marks (h : IsNumeral text) : ∀ c ∈ text, isDigit c = true ∨ c ∈ marks := by
  obtain ⟨whole, fraction, exponent, hwhole, hfraction, hexponent, -, rfl⟩ := isNumeral_iff_parts.mp h
  have hsigns : ∀ sign ∈ [[], ['+'], ['-']], ∀ c ∈ sign, c ∈ marks := by simp [marks]
  refine List.forall_mem_append.mpr ⟨fun c hc => .inl (hwhole c hc), List.forall_mem_append.mpr ⟨?_, ?_⟩⟩
  · obtain rfl | ⟨digits, hdigits, rfl⟩ := hfraction
    · exact List.forall_mem_nil _
    · exact List.forall_mem_cons.mpr ⟨.inr (by decide), fun c hc => .inl (hdigits c hc)⟩
  · obtain rfl | ⟨mark, sign, digits, hmark, hsign, -, hdigits, rfl⟩ := hexponent
    · exact List.forall_mem_nil _
    · refine List.forall_mem_cons.mpr ⟨.inr ?_, List.forall_mem_append.mpr
        ⟨fun c hc => .inr (hsigns sign hsign c hc), fun c hc => .inl (hdigits c hc)⟩⟩
      rcases hmark with rfl | rfl <;> decide

theorem IsNumeral.isBlank_eq_false (h : IsNumeral text) : ∀ c ∈ text, isBlank c = false := by
  have hmarks : marks.all (fun c => !isBlank c) = true := by decide
  intro c hc
  rcases h.isDigit_or_mem_marks c hc with hdigit | hmark
  · exact Text.not_isBlank_of_isDigit hdigit
  · simpa using List.all_eq_true.mp hmarks c hmark

/-- The only letter in a numeral is the one that marks its exponent. -/
theorem IsNumeral.eq_mark_of_isLetter (h : IsNumeral text) :
    ∀ c ∈ text, isLetter c = true → c = 'e' ∨ c = 'E' := by
  have hmarks : marks.all (fun c => !isLetter c || c == 'e' || c == 'E') = true := by decide
  intro c hc hletter
  rcases h.isDigit_or_mem_marks c hc with hdigit | hmark
  · obtain ⟨-, hhigh⟩ := Text.isDigit_iff.mp hdigit
    rw [isLetter, Text.letterRanges, Text.covers, if_pos (by omega)] at hletter
    cases hletter
  · simpa [hletter] using List.all_eq_true.mp hmarks c hmark

theorem IsNumeral.ne_nil (h : IsNumeral text) : text ≠ [] := by
  cases h with
  | whole hne => exact List.append_ne_nil_of_left_ne_nil hne _
  | point => exact List.cons_ne_nil _ _

end Decimal

/-! ## Numbers of texts -/

namespace Text

/-- Trimming takes nothing off a text without blanks. -/
theorem trim_eq_self {text : List Char} (h : ∀ c ∈ text, isBlank c = false) : trim text = text := by
  have hleft {text : List Char} (h : ∀ c ∈ text, isBlank c = false) : text.dropWhile isBlank = text := by
    cases text with
    | nil => rfl
    | cons c rest => rw [List.dropWhile_cons_of_neg (by rw [h c List.mem_cons_self]; decide)]
  rw [trim, trimLeft, hleft h, trimRight, hleft fun c hc => h c (List.mem_reverse.mp hc), List.reverse_reverse]

end Text

namespace Value

/-- A text that is a numeral converts to what it is read as. -/
theorem numberOfText_of_isNumeral {text : String} (h : Decimal.IsNumeral text.toList) {numeral : Decimal}
    (hparse : Decimal.parse? text.toList = some numeral) : numberOfText text = numeral.toFloat := by
  have hword (word : String) (hletter : 'I' ∈ word.toList) : text.toList ≠ word.toList := by
    intro heq
    rw [← heq] at hletter
    exact absurd (h.eq_mark_of_isLetter 'I' hletter (by decide)) (by decide)
  have hpositive : ¬ (text.toList = "Infinity".toList ∨ text.toList = "+Infinity".toList) :=
    not_or.mpr ⟨hword _ (by decide), hword _ (by decide)⟩
  have hnegative : text.toList ≠ "-Infinity".toList := hword _ (by decide)
  have hempty : ¬ text.toList.isEmpty = true := fun hnil => h.ne_nil (List.isEmpty_iff.mp hnil)
  simp only [numberOfText, Text.trim_eq_self h.isBlank_eq_false]
  rw [if_neg hempty, if_neg hpositive, if_neg hnegative, hparse]

end Value

namespace Token

theorem isNumeral_of_mem_scan {text : String} {token : Token} (h : token ∈ scan text)
    (hkind : token.kind = .number) : Decimal.IsNumeral token.text.toList := by
  obtain ⟨last, hlast, hscan, hlexemes⟩ := scan_eq text
  rw [hscan] at h
  rcases List.mem_append.mp h with hbody | hend
  · obtain ⟨c, rest, start, rfl⟩ := hlexemes token hbody
    rw [Lexeme.token, String.toList_ofList]
    exact Decimal.isNumeral_iff_parts.mpr (exists_taken_eq hkind)
  · rw [List.mem_singleton.mp hend, hlast] at hkind
    cases hkind

/-- The token writes the number that its text converts to. -/
def Converts (token : Token) : Prop :=
  ∃ numeral, Decimal.parse? token.text.toList = some numeral ∧
    numeral.toFloat = (Value.string token.text).toNumber

theorem converts_of_mem_scan {text : String} {token : Token} (h : token ∈ scan text)
    (hkind : token.kind = .number) : token.Converts := by
  have hnumeral := isNumeral_of_mem_scan h hkind
  obtain ⟨numeral, hparse⟩ := hnumeral.exists_parse?
  exact ⟨numeral, hparse, (Value.numberOfText_of_isNumeral hnumeral hparse).symm⟩

end Token

end FlowPath
