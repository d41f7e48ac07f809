import FlowPath.Proofs.Token.Scan
import Mathlib.Data.List.Find
import Mathlib.Data.List.Forall2

/-!
# Texts made of pieces

A text that is written piece by piece, with single blanks in between, is scanned to one token a piece
(`scan_join`). Pieces are symbols, numbers, words and quoted strings; followed by a blank or by nothing,
each of them is a lexeme of its own (`Piece.Stands`).
-/

namespace FlowPath

open FlowPath.Text (isBlank isDigit isWordChar startsWord)

/-- A text that is a name: a word that is not reserved. -/
def Token.isName : List Char → Bool
  | [] => false
  | c :: rest => startsWord c && rest.all isWordChar && wordKind (c :: rest) == .identifier

/-- A name. -/
structure Name where
  text : String
  isName : Token.isName text.toList = true

/-- What is written for a token: its kind, its characters and the text that they stand for. -/
structure Piece where
  kind : Token.Kind
  text : String
  value : String := ""

namespace Piece

/-- The quote and backslashes are written with a backslash before them. -/
def escapeFor (quote : Char) : List Char → List Char
  | [] => []
  | c :: rest =>
    if c = quote ∨ c = '\\' then '\\' :: c :: escapeFor quote rest else c :: escapeFor quote rest

/-- The same inside of double quotes. -/
def escape : List Char → List Char := escapeFor '"'

/-- A symbol or a reserved word. -/
def fixed (kind : Token.Kind) : Piece := { kind, text := kind.spelling }

def boolean (truth : Bool) : Piece := fixed (if truth then .trueWord else .falseWord)

def integer (n : Nat) : Piece := { kind := .number, text := n.repr }

def name (name : Name) : Piece := { kind := .identifier, text := name.text }

def quoted (value : String) : Piece :=
  { kind := .string, text := String.ofList ('"' :: (escape value.toList ++ ['"'])), value }

/-- The pieces one after the other, with a blank between any two. -/
def join (pieces : List Piece) : String := " ".intercalate (pieces.map (·.text))

/-- The piece is a lexeme of its own wherever it stands between blanks. -/
structure Stands (piece : Piece) : Prop where
  first : ∃ c rest, piece.text.toList = c :: rest ∧ isBlank c = false
  lexeme : ∀ rest : List Char, (∀ c ∈ rest.head?, c = ' ') →
    Token.lexeme (piece.text.toList ++ rest) =
      { kind := piece.kind, taken := piece.text.toList, rest, value := piece.value.toList }

/-- The token is written as the piece. -/
structure Writes (piece : Piece) (token : Token) : Prop where
  kind : token.kind = piece.kind
  text : token.text = piece.text
  value : token.value = piece.value

end Piece

/-! ## Classes of characters -/

namespace Text

theorem isDigit_iff {c : Char} : isDigit c = true ↔ 48 ≤ c.toNat ∧ c.toNat ≤ 57 := by
  simp [isDigit, Char.le_def, UInt32.le_iff_toNat_le]

theorem isDigit_of_mem_toDigits {c : Char} {n : Nat} (h : c ∈ Nat.toDigits 10 n) : isDigit c = true := by
  have hdigit : c.isDigit = true := Nat.isDigit_of_mem_toDigits (by decide) (by decide) h
  simpa [isDigit_iff, Char.isDigit, UInt32.le_iff_toNat_le] using hdigit

theorem not_isDigit_of_startsWord {c : Char} (h : startsWord c = true) : isDigit c = false := by
  refine Bool.eq_false_iff.mpr fun hdigit => ?_
  obtain ⟨hlow, hhigh⟩ := isDigit_iff.mp hdigit
  have hletter : isLetter c = false := by
    rw [isLetter, letterRanges, covers, if_pos (by omega)]
  simp only [startsWord, hletter, Bool.or_false, Bool.or_eq_true, beq_iff_eq] at h
  rcases h with rfl | rfl
  · exact absurd hhigh (by decide)
  · exact absurd hlow (by decide)

/-- No blank stands in a word, and none is a digit. -/
theorem of_isBlank {c : Char} (h : isBlank c = true) : isWordChar c = false ∧ isDigit c = false := by
  have hranges : ∀ r ∈ blankRanges, ∀ n ∈ List.range' r.1 (r.2 + 1 - r.1),
      n ≠ 95 ∧ n ≠ 36 ∧ (covers letterRanges n || covers numeralRanges n) = false ∧ ¬ (48 ≤ n ∧ n ≤ 57) := by
    decide +kernel
  obtain ⟨r, hr, hlow, hhigh⟩ := exists_range_of_covers h
  obtain ⟨hunderscore, hdollar, hletter, hdigit⟩ :=
    hranges r hr c.toNat (List.mem_range'_1.mpr ⟨hlow, by omega⟩)
  have hne (d : Char) (h : c.toNat ≠ d.toNat) : (c == d) = false :=
    beq_eq_false_iff_ne.mpr fun heq => h (congrArg Char.toNat heq)
  constructor
  · rw [isWordChar, hne '_' hunderscore, hne '$' hdollar]
    exact hletter
  · exact Bool.eq_false_iff.mpr fun h => hdigit (isDigit_iff.mp h)

theorem not_isBlank_of_isWordChar {c : Char} (h : isWordChar c = true) : isBlank c = false :=
  Bool.eq_false_iff.mpr fun hblank => Bool.eq_false_iff.mp (of_isBlank hblank).1 h

theorem not_isBlank_of_startsWord {c : Char} (h : startsWord c = true) : isBlank c = false :=
  not_isBlank_of_isWordChar (isWordChar_of_startsWord h)

theorem not_isBlank_of_isDigit {c : Char} (h : isDigit c = true) : isBlank c = false :=
  Bool.eq_false_iff.mpr fun hblank => Bool.eq_false_iff.mp (of_isBlank hblank).2 h

end Text

namespace Piece

open Token (lexeme Lexeme lexString lexWord lexSymbol lexNumber startsNumber)

/-! ## Pieces that stand by themselves -/

theorem startsNumber_eq {c : Char} (hc : c ≠ '.') (rest : List Char) :
    startsNumber (c :: rest) = isDigit c := by
  unfold startsNumber
  split
  case h_1 heq => exact absurd (List.cons.inj heq).1 hc
  case h_2 heq => rw [(List.cons.inj heq).1]
  case h_3 => contradiction

/-- A word, followed by something that does not go on with it. -/
theorem lexeme_word {c : Char} {word rest : List Char} (hc : startsWord c = true)
    (hword : ∀ d ∈ word, isWordChar d = true) (hrest : ∀ d ∈ rest.head?, isWordChar d = false) :
    lexeme (c :: word ++ rest) = { kind := Token.wordKind (c :: word), taken := c :: word, rest } := by
  have hne {d : Char} (hd : startsWord d = false) : c ≠ d := by
    rintro rfl
    rw [hc] at hd
    cases hd
  have hnumber : startsNumber (c :: (word ++ rest)) = false := by
    rw [startsNumber_eq (hne (by decide)), Text.not_isDigit_of_startsWord hc]
  have hquote : ¬ (c = '"' ∨ c = '\'') := by
    rintro (h | h) <;> exact hne (by decide) h
  have hall : ∀ d ∈ c :: word, isWordChar d = true :=
    List.forall_mem_cons.mpr ⟨Text.isWordChar_of_startsWord hc, hword⟩
  have hspan : (c :: (word ++ rest)).span isWordChar = (c :: word, rest) := Token.span_append hall hrest
  simp only [List.cons_append, lexeme, hnumber, hquote, hc, lexWord, hspan]
  rfl

/-- Digits, followed by a blank or nothing. -/
theorem lexeme_digits {d : Char} {digits rest : List Char} (hd : isDigit d = true)
    (hdigits : ∀ c ∈ digits, isDigit c = true) (hrest : ∀ c ∈ rest.head?, c = ' ') :
    lexeme (d :: digits ++ rest) = { kind := .number, taken := d :: digits, rest } := by
  have hnumber : startsNumber (d :: (digits ++ rest)) = true := by
    rw [startsNumber_eq (Token.ne_of_isDigit hd rfl), hd]
  have hall : ∀ c ∈ d :: digits, isDigit c = true := List.forall_mem_cons.mpr ⟨hd, hdigits⟩
  have hblank : ∀ c ∈ rest.head?, isDigit c = false := fun c hc => by rw [hrest c hc]; rfl
  have hspan : (d :: (digits ++ rest)).span isDigit = (d :: digits, rest) := Token.span_append hall hblank
  have hfraction : Token.splitFraction rest = ([], rest) := by
    rcases rest with _ | ⟨c, rest⟩
    · rfl
    · rw [hrest c rfl]
      rfl
  have hexponent : Token.splitExponent rest = ([], rest) := by
    rcases rest with _ | ⟨c, rest⟩
    · rfl
    · rw [hrest c rfl]
      rfl
  simp only [List.cons_append, lexeme, hnumber, lexNumber, hspan, hfraction, hexponent, List.append_nil,
    if_true]

/-- What follows does not matter for a word that does not have its first character. -/
theorem isPrefixOf_append {word front rest : List Char} (h : ∀ c ∈ rest.head?, c ∉ word) :
    word.isPrefixOf (front ++ rest) = word.isPrefixOf front := by
  induction word generalizing front with
  | nil => simp
  | cons w word ih =>
    have hword : ∀ c ∈ rest.head?, c ∉ word := fun c hc hmem => h c hc (List.mem_cons_of_mem _ hmem)
    cases front with
    | cons f front => simp [List.isPrefixOf, ih hword]
    | nil =>
      rcases rest with _ | ⟨c, rest⟩
      · rfl
      · have hne : w ≠ c := fun heq => h c rfl (heq ▸ List.mem_cons_self)
        simp [List.isPrefixOf, hne]

/-- A symbol, followed by a blank or nothing. -/
theorem lexeme_symbol {kind : Token.Kind} (hkind : kind ∈ Token.symbols) {rest : List Char}
    (hrest : ∀ c ∈ rest.head?, c = ' ') :
    lexeme (kind.spelling.toList ++ rest) = { kind, taken := kind.spelling.toList, rest } := by
  have hblanks : ∀ kind ∈ Token.symbols, ' ' ∉ kind.spelling.toList := by decide
  have hlongest : ∀ kind ∈ Token.symbols,
      Token.symbols.find? (fun k => k.spelling.toList.isPrefixOf kind.spelling.toList) = some kind := by
    decide
  have hfirst : ∀ kind ∈ Token.symbols, (kind.spelling.toList.head?.any fun c =>
      !startsWord c && !isDigit c && c != '"' && c != '\'' &&
        (c != '.' || kind.spelling.toList == ['.'])) = true := by decide +kernel
  obtain ⟨c, hc, hchecks⟩ := (Option.any_eq_true _ _).mp (hfirst kind hkind)
  obtain ⟨⟨⟨⟨hword, hdigit⟩, hdouble⟩, hsingle⟩, hdot⟩ : (((startsWord c = false ∧ isDigit c = false) ∧
      c ≠ '"') ∧ c ≠ '\'') ∧ (c ≠ '.' ∨ kind.spelling.toList = ['.']) := by simpa using hchecks
  obtain ⟨cs, hspelling⟩ : ∃ cs, kind.spelling.toList = c :: cs := List.head?_eq_some_iff.mp hc
  have hfind : Token.symbols.find? (fun k => k.spelling.toList.isPrefixOf (kind.spelling.toList ++ rest)) =
      some kind := by
    rw [← hlongest kind hkind]
    exact List.find?_congr fun k hk => isPrefixOf_append fun c hc => hrest c hc ▸ hblanks k hk
  have hnumber : startsNumber (kind.spelling.toList ++ rest) = false := by
    by_cases hcase : c = '.'
    · rw [hdot.resolve_left (not_not.mpr hcase)]
      rcases rest with _ | ⟨d, rest⟩
      · rfl
      · rw [hrest d rfl]
        rfl
    · rw [hspelling, List.cons_append, startsNumber_eq hcase, hdigit]
  have hsymbol : lexSymbol (kind.spelling.toList ++ rest) =
      { kind, taken := kind.spelling.toList, rest } := by
    simp [lexSymbol, hfind, ← String.length_toList]
  rw [← hsymbol]
  rw [hspelling, List.cons_append] at hnumber ⊢
  simp [lexeme, hnumber, hdouble, hsingle, hword]

theorem lexString_quote (quote : Char) (rest : List Char) :
    lexString quote (quote :: rest) = { kind := .string, taken := [quote], rest } := by
  unfold lexString
  simp

theorem lexString_escaped {quote c : Char} (h : quote ≠ '\\') (text : List Char) :
    lexString quote ('\\' :: c :: text) = (lexString quote text).after ['\\', c] [Token.unescape c] := by
  conv => lhs; unfold lexString
  simp [h.symm]

theorem lexString_plain {quote c : Char} (hquote : c ≠ quote) (hbackslash : c ≠ '\\') (text : List Char) :
    lexString quote (c :: text) = (lexString quote text).after [c] [c] := by
  conv => lhs; unfold lexString
  simp [hquote, hbackslash]

/-- Escaped characters, up to the closing quote. -/
theorem lexString_escapeFor {quote : Char} (hquote : Token.unescape quote = quote) (hbackslash : quote ≠ '\\')
    (value rest : List Char) :
    lexString quote (escapeFor quote value ++ quote :: rest) =
      { kind := .string, taken := escapeFor quote value ++ [quote], rest, value } := by
  induction value with
  | nil => exact lexString_quote quote rest
  | cons c value ih =>
    by_cases hspecial : c = quote ∨ c = '\\'
    · have hunescape : Token.unescape c = c := by
        rcases hspecial with rfl | rfl
        · exact hquote
        · rfl
      rw [escapeFor, if_pos hspecial, List.cons_append, List.cons_append, lexString_escaped hbackslash, ih,
        hunescape]
      rfl
    · obtain ⟨hne, hplain⟩ := not_or.mp hspecial
      rw [escapeFor, if_neg hspecial, List.cons_append, lexString_plain hne hplain, ih]
      rfl

theorem lexString_escape (value rest : List Char) :
    lexString '"' (escape value ++ '"' :: rest) =
      { kind := .string, taken := escape value ++ ['"'], rest, value } :=
  lexString_escapeFor rfl (by decide) value rest

theorem stands_symbol {kind : Token.Kind} (hkind : kind ∈ Token.symbols) : (fixed kind).Stands := by
  have hfirst : ∀ kind ∈ Token.symbols, kind.spelling.toList.head?.any (!isBlank ·) = true := by decide
  obtain ⟨c, hc, hblank⟩ := (Option.any_eq_true _ _).mp (hfirst kind hkind)
  obtain ⟨cs, hspelling⟩ := List.head?_eq_some_iff.mp hc
  exact ⟨⟨c, cs, hspelling, by simpa using hblank⟩, fun rest hrest => lexeme_symbol hkind hrest⟩

/-- A word between blanks. -/
theorem stands_of_word {piece : Piece} {c : Char} {word : List Char} (htext : piece.text.toList = c :: word)
    (hc : startsWord c = true) (hword : ∀ d ∈ word, isWordChar d = true)
    (hkind : Token.wordKind (c :: word) = piece.kind) (hvalue : piece.value = "") : piece.Stands where
  first := ⟨c, word, htext, Text.not_isBlank_of_startsWord hc⟩
  lexeme rest hrest := by
    have hblank : ∀ d ∈ rest.head?, isWordChar d = false := fun d hd => by
      rw [hrest d hd]
      decide +kernel
    rw [htext, lexeme_word hc hword hblank, hkind, hvalue]
    rfl

theorem stands_boolean (truth : Bool) : (boolean truth).Stands := by
  cases truth with
  | true =>
    have hword : ['r', 'u', 'e'].all isWordChar = true := by decide +kernel
    exact stands_of_word rfl (by decide +kernel) (List.all_eq_true.mp hword) (by decide) rfl
  | false =>
    have hword : ['a', 'l', 's', 'e'].all isWordChar = true := by decide +kernel
    exact stands_of_word rfl (by decide +kernel) (List.all_eq_true.mp hword) (by decide) rfl

theorem stands_name (n : Name) : (name n).Stands := by
  have hname := n.isName
  rcases htext : n.text.toList with _ | ⟨c, word⟩
  · rw [htext] at hname
    cases hname
  · rw [htext] at hname
    simp only [Token.isName, Bool.and_eq_true, List.all_eq_true, beq_iff_eq] at hname
    obtain ⟨⟨hc, hword⟩, hkind⟩ := hname
    exact stands_of_word htext hc hword hkind rfl

theorem toList_text_integer (n : Nat) : (integer n).text.toList = Nat.toDigits 10 n := by
  simp [integer, Nat.repr_eq_ofList_toDigits]

theorem stands_integer (n : Nat) : (integer n).Stands := by
  have htext := toList_text_integer n
  have hdigits : ∀ c ∈ Nat.toDigits 10 n, isDigit c = true := fun _ => Text.isDigit_of_mem_toDigits
  rcases hcases : Nat.toDigits 10 n with _ | ⟨d, digits⟩
  · exact absurd hcases Nat.toDigits_ne_nil
  · rw [hcases] at htext hdigits
    obtain ⟨hd, hdigits⟩ := List.forall_mem_cons.mp hdigits
    refine ⟨⟨d, digits, htext, Text.not_isBlank_of_isDigit hd⟩, fun rest hrest => ?_⟩
    rw [htext, lexeme_digits hd hdigits hrest]
    rfl

theorem stands_quoted (value : String) : (quoted value).Stands := by
  have htext : (quoted value).text.toList = '"' :: (escape value.toList ++ ['"']) := String.toList_ofList
  refine ⟨⟨'"', _, htext, by decide⟩, fun rest _ => ?_⟩
  have hstring := lexString_escape value.toList rest
  have hnumber : startsNumber ('"' :: (escape value.toList ++ '"' :: rest)) = false := rfl
  rw [htext]
  simp only [List.cons_append, List.append_assoc, List.nil_append, lexeme, hnumber, hstring]
  rfl

/-! ## Joined pieces -/

/-- After the first piece there is a blank before the others, if there are others. -/
theorem exists_toList_join_cons (piece : Piece) (pieces : List Piece) :
    ∃ blanks, (∀ c ∈ blanks, isBlank c = true) ∧
      (∀ c ∈ (blanks ++ (join pieces).toList).head?, c = ' ') ∧
      (join (piece :: pieces)).toList = piece.text.toList ++ (blanks ++ (join pieces).toList) := by
  cases pieces with
  | nil => exact ⟨[], by simp, by simp [join], by simp [join]⟩
  | cons next pieces =>
    refine ⟨[' '], List.forall_mem_singleton.mpr (by decide), by simp, ?_⟩
    simp [join, String.toList_intercalate]

theorem scanFrom_piece {piece : Piece} (h : piece.Stands) {blanks rest : List Char}
    (hblanks : ∀ c ∈ blanks, isBlank c = true) (hrest : ∀ c ∈ rest.head?, c = ' ') (fuel offset : Nat) :
    ∃ token, Token.scanFrom (fuel + 1) offset (blanks ++ (piece.text.toList ++ rest)) =
      token :: Token.scanFrom fuel token.stop rest ∧ piece.Writes token := by
  obtain ⟨c, cs, htext, hc⟩ := h.first
  have hspan : (blanks ++ (piece.text.toList ++ rest)).span isBlank = (blanks, c :: (cs ++ rest)) := by
    rw [htext]
    exact Token.span_append hblanks (by simp [hc])
  have hlexeme : lexeme (c :: (cs ++ rest)) =
      { kind := piece.kind, taken := piece.text.toList, rest, value := piece.value.toList } := by
    rw [← List.cons_append, ← htext, h.lexeme rest hrest]
  refine ⟨(lexeme (c :: (cs ++ rest))).token (offset + Token.byteSize blanks), ?_, ?_⟩
  · simp only [Token.scanFrom, hspan, hlexeme]
  · rw [hlexeme]
    exact ⟨rfl, String.ofList_toList, String.ofList_toList⟩

/-- The tokens of pieces that stand by themselves, after any blanks. -/
theorem scanFrom_join {pieces : List Piece} (h : ∀ piece ∈ pieces, piece.Stands) {blanks : List Char}
    (hblanks : ∀ c ∈ blanks, isBlank c = true) {fuel : Nat}
    (hfuel : (blanks ++ (join pieces).toList).length < fuel) (offset : Nat) :
    ∃ tokens last, Token.scanFrom fuel offset (blanks ++ (join pieces).toList) = tokens ++ [last] ∧
      last.kind = .endOfText ∧ List.Forall₂ Writes pieces tokens := by
  induction pieces generalizing fuel offset blanks with
  | nil =>
    obtain ⟨fuel, rfl⟩ := Nat.exists_eq_succ_of_ne_zero (Nat.ne_zero_of_lt hfuel)
    have hspan : (blanks ++ []).span isBlank = (blanks, []) := Token.span_append hblanks (by simp)
    have hjoin : (join []).toList = [] := by simp [join]
    refine ⟨[], (lexeme []).token (offset + Token.byteSize blanks), ?_, rfl, .nil⟩
    simp only [hjoin, Token.scanFrom, hspan, List.nil_append]
  | cons piece pieces ih =>
    obtain ⟨fuel, rfl⟩ := Nat.exists_eq_succ_of_ne_zero (Nat.ne_zero_of_lt hfuel)
    obtain ⟨hpiece, hpieces⟩ := List.forall_mem_cons.mp h
    obtain ⟨blanks', hblanks', hhead, hjoin⟩ := exists_toList_join_cons piece pieces
    obtain ⟨token, hscan, hwrites⟩ := scanFrom_piece hpiece hblanks hhead fuel offset
    have hlength : 0 < piece.text.toList.length := by
      obtain ⟨c, cs, htext, -⟩ := hpiece.first
      simp [htext]
    have hfuel' : (blanks' ++ (join pieces).toList).length < fuel := by
      rw [hjoin] at hfuel
      simp only [List.length_append] at hfuel hlength ⊢
      omega
    obtain ⟨tokens, last, htokens, hlast, hall⟩ := ih hpieces hblanks' hfuel' token.stop
    refine ⟨token :: tokens, last, ?_, hlast, .cons hwrites hall⟩
    rw [hjoin, hscan, htokens, List.cons_append]

/-- A text that is made of pieces has a token for each of them. -/
theorem scan_join {pieces : List Piece} (h : ∀ piece ∈ pieces, piece.Stands) :
    ∃ tokens last, Token.scan (join pieces) = tokens ++ [last] ∧ last.kind = .endOfText ∧
      List.Forall₂ Writes pieces tokens :=
  scanFrom_join h (List.forall_mem_nil _) (Nat.lt_succ_self _) 0

end Piece

end FlowPath
