import FlowPath.Json.Reader
import FlowPath.Proofs.Json.Grammar
import FlowPath.Proofs.Token.Scan

/-!
# Reading strings, numbers and words

The readers take what the grammar describes, and leave what stands behind it. A string has an end of its own, so
anything may follow it (`readString_spells`). A number goes on as long as it can, so what follows has to be
something that a value can end in front of (`EndsValue`, `ReadsScalar`).
-/

namespace FlowPath.Json

open FlowPath.Text (isDigit)

variable {α : Type}

/-- A value can end in front of the text. -/
def EndsValue (rest : List Char) : Prop :=
  ∀ c ∈ rest.head?, isSpace c = true ∨ c = ',' ∨ c = ']' ∨ c = '\x7d'

/-! ## Space -/

theorem isSpace_iff {c : Char} : isSpace c = true ↔ c ∈ [' ', '\n', '\t', '\r'] := by
  simp [isSpace, or_assoc]

theorem skipSpace_append {space : List Char} (h : Space space) (text : List Char) :
    skipSpace (space ++ text) = skipSpace text :=
  List.dropWhile_append_of_pos fun c hc => isSpace_iff.mpr (h c hc)

theorem skipSpace_cons {c : Char} (hc : isSpace c = false) (text : List Char) :
    skipSpace (c :: text) = c :: text :=
  List.dropWhile_cons_of_neg (by simp [hc])

theorem endsValue_append {space rest : List Char} (h : Space space) (hrest : EndsValue rest) :
    EndsValue (space ++ rest) := by
  cases space with
  | nil => exact hrest
  | cons c space =>
    rintro _ ⟨⟩
    exact .inl (isSpace_iff.mpr (h c (List.mem_cons_self ..)))

theorem readWord_append (word rest : List Char) : readWord word (word ++ rest) = .ok ((), rest) := by
  induction word with
  | nil => rfl
  | cons c word ih => rw [List.cons_append, readWord, if_pos rfl, ih]

/-! ## Strings -/

theorem hexValue?_of_mem {c : Char} {i : Nat} (h : (c, i) ∈ hexDigits) : hexValue? c = some i := by
  have hall : hexDigits.all (fun digit => hexValue? digit.1 == some digit.2) = true := by decide
  simpa using List.all_eq_true.mp hall (c, i) h

theorem SpellsUnit.exists_digits {unit : Nat} {text : List Char} (h : SpellsUnit unit text) :
    ∃ digits, text = '\\' :: 'u' :: digits ∧ ∀ rest, readUnit (digits ++ rest) = .ok (unit, rest) := by
  obtain ⟨ha, hb, hc, hd⟩ := h
  rename_i a b c d i j k l
  refine ⟨[a, b, c, d], rfl, fun rest => ?_⟩
  have hvalue : ((i * 16 + j) * 16 + k) * 16 + l = i * 0x1000 + j * 0x100 + k * 0x10 + l := by omega
  simp only [List.cons_append, List.nil_append, readUnit, hexValue?_of_mem ha, hexValue?_of_mem hb,
    hexValue?_of_mem hc, hexValue?_of_mem hd, hvalue]

theorem SpellsUnit.length_pos {unit : Nat} {text : List Char} (h : SpellsUnit unit text) : 0 < text.length := by
  cases h
  simp

/-- The numbers of the units of a character are read as that character. -/
theorem exists_digits_of_units {c : Char} {escapes : List (List Char)}
    (h : List.Forall₂ SpellsUnit (units c) escapes) :
    ∃ digits, escapes.flatten = '\\' :: 'u' :: digits ∧ ∀ rest, readNumbered (digits ++ rest) = .ok (c, rest) := by
  have hvalid : c.toNat < 0xD800 ∨ 0xDFFF < c.toNat ∧ c.toNat < 0x110000 := c.valid
  unfold units at h
  split at h
  · -- a single unit, which is no surrogate
    rename_i hsmall
    obtain ⟨text, others, hunit, hnil, rfl⟩ := List.forall₂_cons_left_iff.mp h
    obtain rfl := List.forall₂_nil_left_iff.mp hnil
    obtain ⟨digits, rfl, hread⟩ := hunit.exists_digits
    refine ⟨digits, by simp, fun rest => ?_⟩
    have hlow : isLowSurrogate c.toNat = false := by
      simp only [isLowSurrogate, Bool.and_eq_false_iff, decide_eq_false_iff_not]
      omega
    have hhigh : isHighSurrogate c.toNat = false := by
      simp only [isHighSurrogate, Bool.and_eq_false_iff, decide_eq_false_iff_not]
      omega
    simp [readNumbered, hread, hlow, hhigh, bind, Except.bind, pure, Except.pure]
  · rename_i hlarge
    obtain ⟨high, others, hhighUnit, hothers, rfl⟩ := List.forall₂_cons_left_iff.mp h
    obtain ⟨low, others, hlowUnit, hnil, rfl⟩ := List.forall₂_cons_left_iff.mp hothers
    obtain rfl := List.forall₂_nil_left_iff.mp hnil
    obtain ⟨digits, rfl, hread⟩ := hhighUnit.exists_digits
    obtain ⟨lowDigits, rfl, hreadLow⟩ := hlowUnit.exists_digits
    refine ⟨digits ++ '\\' :: 'u' :: lowDigits, by simp, fun rest => ?_⟩
    generalize hhigh : 0xD800 + (c.toNat - 0x10000) / 0x400 = high at hread
    generalize hlow : 0xDC00 + (c.toNat - 0x10000) % 0x400 = low at hreadLow
    have hsurrogates : isLowSurrogate high = false ∧ isHighSurrogate high = true ∧ isLowSurrogate low = true := by
      simp only [isLowSurrogate, isHighSurrogate, Bool.and_eq_false_iff, Bool.and_eq_true, decide_eq_true_eq,
        decide_eq_false_iff_not]
      omega
    have hvalue : 0x10000 + (high - 0xD800) * 0x400 + (low - 0xDC00) = c.toNat := by omega
    have hread := hread ('\\' :: 'u' :: (lowDigits ++ rest))
    have hword := readWord_append ['\\', 'u'] (lowDigits ++ rest)
    simp only [List.cons_append, List.nil_append] at hword
    simp [readNumbered, hread, hsurrogates, hword, hreadLow, hvalue, bind, Except.bind, pure, Except.pure]

theorem letterEscape?_of_mem {letter c : Char} (h : (letter, c) ∈ letterEscapes) :
    letterEscape? letter = some c ∧ letter ≠ 'u' := by
  have hall : letterEscapes.all (fun escape => letterEscape? escape.1 == some escape.2 && escape.1 != 'u') =
      true := by decide
  simpa using List.all_eq_true.mp hall (letter, c) h

/-- One step of the reader takes one character, however it is written. -/
theorem readChars_char {c : Char} {text : List Char} (h : SpellsChar c text) (fuel : Nat) (done rest : List Char) :
    readChars (fuel + 1) done (text ++ rest) = readChars fuel (c :: done) rest := by
  cases h with
  | itself hquote hbackslash hcontrol =>
    rw [List.singleton_append, readChars.eq_def]
    simp [hquote, hbackslash, Nat.not_lt.mpr hcontrol]
  | letter h =>
    obtain ⟨hletter, hu⟩ := letterEscape?_of_mem h
    rw [readChars.eq_def]
    simp [hletter]
  | units h =>
    obtain ⟨digits, hdigits, hread⟩ := exists_digits_of_units h
    rw [hdigits, readChars.eq_def]
    simp [hread, bind, Except.bind]

theorem SpellsChar.length_pos {c : Char} {text : List Char} (h : SpellsChar c text) : 0 < text.length := by
  cases h with
  | itself => simp
  | letter => simp
  | units h =>
    obtain ⟨digits, hdigits, -⟩ := exists_digits_of_units h
    simp [hdigits]

theorem readChars_spells {chars text : List Char} (h : SpellsChars chars text) {fuel : Nat}
    (hfuel : text.length < fuel) (done rest : List Char) :
    readChars fuel done (text ++ '"' :: rest) = .ok (String.ofList (done.reverse ++ chars), rest) := by
  induction h generalizing fuel done with
  | nil =>
    obtain ⟨fuel, rfl⟩ := Nat.exists_eq_add_one_of_ne_zero (Nat.ne_of_gt hfuel)
    simp [readChars]
  | cons hfirst hrest ih =>
    obtain ⟨fuel, rfl⟩ := Nat.exists_eq_add_one_of_ne_zero (Nat.ne_zero_of_lt hfuel)
    have hlength := hfirst.length_pos
    rw [List.length_append] at hfuel
    rw [List.append_assoc, readChars_char hfirst, ih (by omega)]
    simp

theorem readString_spells {value : String} {text : List Char} (h : SpellsChars value.toList text)
    (rest : List Char) : readString (text ++ '"' :: rest) = .ok (value, rest) := by
  have hfuel : text.length < (text ++ '"' :: rest).length + 1 := by
    rw [List.length_append]
    omega
  rw [readString, readChars_spells h hfuel]
  simp

theorem skipChars_itself {c : Char} (hquote : c ≠ '"') (hbackslash : c ≠ '\\') (hcontrol : 0x20 ≤ c.toNat)
    (fuel : Nat) (text : List Char) : skipChars (fuel + 1) (c :: text) = skipChars fuel text := by
  rw [skipChars.eq_def]
  simp [hquote, hbackslash, Nat.not_lt.mpr hcontrol]

theorem skipChars_letter {letter c : Char} (h : (letter, c) ∈ letterEscapes) (fuel : Nat) (text : List Char) :
    skipChars (fuel + 1) ('\\' :: letter :: text) = skipChars fuel text := by
  obtain ⟨hletter, hu⟩ := letterEscape?_of_mem h
  rw [skipChars.eq_def]
  simp [hletter]

theorem skipChars_unit {unit : Nat} {text : List Char} (h : SpellsUnit unit text) (fuel : Nat) (rest : List Char) :
    skipChars (fuel + 1) (text ++ rest) = skipChars fuel rest := by
  obtain ⟨digits, rfl, hread⟩ := h.exists_digits
  rw [skipChars.eq_def]
  simp [hread, bind, Except.bind]

theorem skipChars_quotable {text : List Char} (h : IsQuotable text) {fuel : Nat} (hfuel : text.length < fuel)
    (rest : List Char) : skipChars fuel (text ++ '"' :: rest) = .ok ((), rest) := by
  induction h generalizing fuel with
  | nil =>
    obtain ⟨fuel, rfl⟩ := Nat.exists_eq_add_one_of_ne_zero (Nat.ne_zero_of_lt hfuel)
    simp [skipChars]
  | itself hquote hbackslash hcontrol _ ih =>
    obtain ⟨fuel, rfl⟩ := Nat.exists_eq_add_one_of_ne_zero (Nat.ne_zero_of_lt hfuel)
    rw [List.cons_append, skipChars_itself hquote hbackslash hcontrol]
    exact ih (Nat.lt_of_succ_lt_succ hfuel)
  | letter hescape _ ih =>
    obtain ⟨fuel, rfl⟩ := Nat.exists_eq_add_one_of_ne_zero (Nat.ne_zero_of_lt hfuel)
    rw [List.cons_append, List.cons_append, skipChars_letter hescape]
    exact ih (Nat.lt_of_succ_lt (Nat.lt_of_succ_lt_succ hfuel))
  | unit hunit _ ih =>
    obtain ⟨fuel, rfl⟩ := Nat.exists_eq_add_one_of_ne_zero (Nat.ne_zero_of_lt hfuel)
    have hlength := hunit.length_pos
    rw [List.length_append] at hfuel
    rw [List.append_assoc, skipChars_unit hunit]
    exact ih (by omega)

/-- `skipScalar` and `skipName` look at no more characters than there are. -/
theorem skipChars_append {text : List Char} (h : IsQuotable text) (rest : List Char) :
    skipChars ((text ++ '"' :: rest).length + 1) (text ++ '"' :: rest) = .ok ((), rest) := by
  refine skipChars_quotable h ?_ rest
  rw [List.length_append]
  omega

/-! ## Numbers -/

/-- No digit comes first. -/
def StartsNoDigit (text : List Char) : Prop := ∀ c ∈ text.head?, isDigit c = false

theorem EndsValue.head {rest : List Char} (h : EndsValue rest) :
    ∀ c ∈ rest.head?, isDigit c = false ∧ c ≠ '.' ∧ c ≠ 'e' ∧ c ≠ 'E' := by
  intro c hc
  rcases h c hc with hspace | rfl | rfl | rfl
  · have hcases : c ∈ [' ', '\n', '\t', '\r'] := isSpace_iff.mp hspace
    simp only [List.mem_cons, List.not_mem_nil, or_false] at hcases
    rcases hcases with rfl | rfl | rfl | rfl <;> decide
  all_goals decide

theorem readDigits_append {digits rest : List Char} (h : IsDigits digits) (hrest : StartsNoDigit rest) :
    readDigits (digits ++ rest) = .ok (digits, rest) := by
  obtain ⟨hne, hdigits⟩ := h
  rw [readDigits, Token.span_append hdigits hrest]
  cases digits with
  | nil => exact absurd rfl hne
  | cons => rfl

theorem readWhole_append {whole rest : List Char} (h : IsWhole whole) (hrest : StartsNoDigit rest) :
    readWhole (whole ++ rest) = .ok (whole, rest) := by
  obtain ⟨hdigits, hzero⟩ := h
  rw [readWhole, readDigits_append hdigits hrest]
  simp only [bind, Except.bind]
  split
  · cases hzero rfl
  · rfl

theorem readFraction_eq_none {rest : List Char} (hpoint : ∀ c ∈ rest.head?, c ≠ '.') :
    readFraction rest = .ok (none, rest) := by
  unfold readFraction
  split
  · exact absurd rfl (hpoint '.' rfl)
  · rfl

theorem readExponent_eq_none {rest : List Char} (hrest : EndsValue rest) : readExponent rest = .ok (none, rest) := by
  cases rest with
  | nil => rfl
  | cons c rest =>
    obtain ⟨-, -, hlower, hupper⟩ := hrest.head c rfl
    rw [readExponent, if_neg (not_or.mpr ⟨hlower, hupper⟩)]

theorem readFraction_append {fraction rest : List Char} (h : IsFraction fraction) (hrest : StartsNoDigit rest)
    (hpoint : ∀ c ∈ rest.head?, c ≠ '.') : ∃ digits, readFraction (fraction ++ rest) = .ok (digits, rest) := by
  cases h with
  | none => exact ⟨none, readFraction_eq_none hpoint⟩
  | point hdigits =>
    rename_i digits
    refine ⟨some digits, ?_⟩
    rw [List.cons_append, readFraction, readDigits_append hdigits hrest]
    rfl

theorem readExponent_append {exponent rest : List Char} (h : IsExponent exponent) (hrest : EndsValue rest) :
    ∃ size, readExponent (exponent ++ rest) = .ok (size, rest) := by
  cases h with
  | none => exact ⟨none, readExponent_eq_none hrest⟩
  | mark hmark hsign hdigits =>
    rename_i mark sign digits
    have hsplit : ∃ negative, Decimal.splitSign (sign ++ (digits ++ rest)) = (negative, digits ++ rest) := by
      simp only [List.mem_cons, List.not_mem_nil, or_false] at hsign
      rcases hsign with rfl | rfl | rfl
      · refine ⟨false, ?_⟩
        obtain ⟨hne, hall⟩ := hdigits
        cases digits with
        | nil => exact absurd rfl hne
        | cons d digits =>
          have hd := hall d (List.mem_cons_self ..)
          exact Token.splitSign_of_ne (Token.ne_of_isDigit hd rfl) (Token.ne_of_isDigit hd rfl)
      · exact ⟨false, rfl⟩
      · exact ⟨true, rfl⟩
    obtain ⟨negative, hsplit⟩ := hsplit
    have hend : StartsNoDigit rest := fun c hc => (hrest.head c hc).1
    simp [readExponent, hmark, hsplit, readDigits_append hdigits hend, bind, Except.bind, pure, Except.pure]

theorem startsNoDigit_exponent {exponent rest : List Char} (h : IsExponent exponent) (hrest : EndsValue rest) :
    StartsNoDigit (exponent ++ rest) ∧ ∀ c ∈ (exponent ++ rest).head?, c ≠ '.' := by
  cases h with
  | none => exact ⟨fun c hc => (hrest.head c hc).1, fun c hc => (hrest.head c hc).2.1⟩
  | mark hmark =>
    constructor <;> rintro _ ⟨⟩ <;> rcases hmark with rfl | rfl <;> decide

theorem startsNoDigit_fraction {fraction rest : List Char} (h : IsFraction fraction) (hrest : StartsNoDigit rest) :
    StartsNoDigit (fraction ++ rest) := by
  cases h with
  | none => exact hrest
  | point =>
    rintro _ ⟨⟩
    rfl

/-- The parts of a number are read one after the other. -/
theorem readWritten_parts {sign whole fraction exponent rest : List Char} (hsign : sign ∈ [[], ['-']])
    (hwhole : IsWhole whole) {digits : Option (List Char)} {size : Option Int}
    (hstart : StartsNoDigit (fraction ++ (exponent ++ rest)))
    (hfraction : readFraction (fraction ++ (exponent ++ rest)) = .ok (digits, exponent ++ rest))
    (hexponent : readExponent (exponent ++ rest) = .ok (size, rest)) :
    readWritten (sign ++ (whole ++ (fraction ++ (exponent ++ rest)))) =
      .ok ({ negative := sign == ['-'], whole, fraction := digits, exponent := size }, rest) := by
  have hread := readWhole_append hwhole hstart
  simp only [List.mem_cons, List.not_mem_nil, or_false] at hsign
  rcases hsign with rfl | rfl
  · obtain ⟨⟨hne, hall⟩, -⟩ := hwhole
    cases whole with
    | nil => exact absurd rfl hne
    | cons d whole =>
      have hd : d ≠ '-' := Token.ne_of_isDigit (hall d (List.mem_cons_self ..)) rfl
      rw [List.cons_append] at hread
      simp [readWritten, hd, hread, hfraction, hexponent, bind, Except.bind, pure, Except.pure]
  · simp [readWritten, hread, hfraction, hexponent, bind, Except.bind, pure, Except.pure]

theorem exists_readWritten {text rest : List Char} (h : IsNumber text) (hrest : EndsValue rest) :
    ∃ written, readWritten (text ++ rest) = .ok (written, rest) := by
  obtain ⟨hsign, hwhole, hfraction, hexponent⟩ := h
  obtain ⟨hdigit, hpoint⟩ := startsNoDigit_exponent hexponent hrest
  obtain ⟨digits, hdigits⟩ := readFraction_append hfraction hdigit hpoint
  obtain ⟨size, hsize⟩ := readExponent_append hexponent hrest
  have hread := readWritten_parts hsign hwhole (startsNoDigit_fraction hfraction hdigit) hdigits hsize
  simp only [List.append_assoc]
  exact ⟨_, hread⟩

theorem IsNumber.exists_cons {text : List Char} (h : IsNumber text) :
    ∃ c rest, text = c :: rest ∧ startsNumber c = true := by
  obtain ⟨hsign, ⟨⟨hne, hall⟩, -⟩, -, -⟩ := h
  simp only [List.mem_cons, List.not_mem_nil, or_false] at hsign
  rcases hsign with rfl | rfl
  · rename_i whole _ _
    cases whole with
    | nil => exact absurd rfl hne
    | cons d whole => exact ⟨d, _, rfl, by simp [startsNumber, hall d (List.mem_cons_self ..)]⟩
  · exact ⟨'-', _, rfl, rfl⟩

/-! ## Scalars -/

/-- No space and no container starts with the character, and no container ends with it. -/
def StartsScalar (c : Char) : Prop := isSpace c = false ∧ c ∉ ['[', ']', '\x7b', '\x7d']

instance (c : Char) : Decidable (StartsScalar c) := inferInstanceAs (Decidable (_ ∧ _))

theorem StartsScalar.ne_start {c : Char} (h : StartsScalar c) : c ≠ '[' ∧ c ≠ '\x7b' := by
  obtain ⟨-, hnot⟩ := h
  simp only [List.mem_cons, List.not_mem_nil, or_false, not_or] at hnot
  exact ⟨hnot.1, hnot.2.2.1⟩

/-- The reader takes the text of a scalar for the value, and leaves what is behind it. -/
structure ReadsScalar (reader : Reader α) (text : List Char) (value : α) : Prop where
  starts : ∃ c tail, text = c :: tail ∧ StartsScalar c
  read : ∀ {rest}, EndsValue rest → reader (text ++ rest) = .ok (value, rest)

theorem startsScalar_of_startsNumber {c : Char} (hc : startsNumber c = true) : StartsScalar c := by
  have hne : ∀ d, startsNumber d = false → c ≠ d := by
    rintro d hd rfl
    rw [hc] at hd
    cases hd
  constructor
  · simp [isSpace, hne ' ' rfl, hne '\n' rfl, hne '\t' rfl, hne '\r' rfl]
  · simp [hne '[' rfl, hne ']' rfl, hne '\x7b' rfl, hne '\x7d' rfl]

theorem ne_quote_of_startsNumber {c : Char} (hc : startsNumber c = true) : c ≠ '"' := by
  rintro rfl
  cases hc

theorem skipScalar_string {text : List Char} (h : IsString text) : ReadsScalar skipScalar text () := by
  rcases h with @⟨inner, hinner⟩
  refine ⟨⟨'"', _, rfl, by decide⟩, fun _ => ?_⟩
  rw [List.cons_append, skipScalar, if_pos rfl, List.append_assoc]
  exact skipChars_append hinner _

theorem skipScalar_number {text : List Char} (h : IsNumber text) : ReadsScalar skipScalar text () := by
  obtain ⟨c, tail, rfl, hc⟩ := h.exists_cons
  refine ⟨⟨c, tail, rfl, startsScalar_of_startsNumber hc⟩, fun hrest => ?_⟩
  obtain ⟨written, hread⟩ := exists_readWritten h hrest
  rw [List.cons_append] at hread ⊢
  simp [skipScalar, ne_quote_of_startsNumber hc, hc, hread, bind, Except.bind, pure, Except.pure]

theorem skipScalar_word {word : String} (h : word ∈ ["null", "true", "false"]) :
    ReadsScalar skipScalar word.toList () := by
  simp only [List.mem_cons, List.not_mem_nil, or_false] at h
  rcases h with rfl | rfl | rfl
  · exact ⟨⟨'n', _, rfl, by decide⟩, fun _ => readWord_append ['u', 'l', 'l'] _⟩
  · exact ⟨⟨'t', _, rfl, by decide⟩, fun _ => readWord_append ['r', 'u', 'e'] _⟩
  · exact ⟨⟨'f', _, rfl, by decide⟩, fun _ => readWord_append ['a', 'l', 's', 'e'] _⟩

end FlowPath.Json
