import Mathlib.Data.String.Basic
import FlowPath.Proofs.Token.Concatenation

/-!
# Scanning tiles the text

A scanner takes one token a call: `Scanner.call` skips the blanks at the front of what is left and takes the
lexeme after them. The calls come to the end of the text and stay there, and the tokens up to that point are
those of `scan` (`exists_calls`).

The tokens cover the text. `Tiles` goes along the tokens and says that only blanks lie between each token and
the one before it; what the offsets are, and that the gaps and the tokens together are the text, follows from
it. A text in quotes, with its quotes and backslashes escaped, is a single string literal
(`scan_quotedWith`).
-/

namespace FlowPath.Token

open FlowPath.Text (isBlank isDigit isWordChar)

/-- The end of a text, at its offset. -/
def endAt (offset : Nat) : Token := (lexeme []).token offset

theorem text_endAt (offset : Nat) : (endAt offset).text = "" := rfl

theorem toList_text_endAt (offset : Nat) : (endAt offset).text.toList = [] := rfl

/-! ## Calls -/

/-- Where a scanner is: an offset in bytes, and the text from there on. -/
structure Scanner where
  offset : Nat
  rest : List Char

namespace Scanner

/-- One call: the blanks are skipped, and the lexeme after them is taken. -/
def call (scanner : Scanner) : Token × Scanner :=
  let (blanks, text) := scanner.rest.span isBlank
  let token := (lexeme text).token (scanner.offset + byteSize blanks)
  (token, { offset := token.stop, rest := (lexeme text).rest })

/-- What a call gives after so many others. -/
def tokenAt : Scanner → Nat → Token
  | scanner, 0 => scanner.call.1
  | scanner, n + 1 => scanner.call.2.tokenAt n

theorem call_blank {c : Char} (hc : isBlank c = true) (offset : Nat) (text : List Char) :
    call ⟨offset, c :: text⟩ = call ⟨offset + c.utf8Size, text⟩ := by
  have hspan : (c :: text).span isBlank = (c :: (text.span isBlank).1, (text.span isBlank).2) := by
    simp [List.span_eq_takeWhile_dropWhile, hc]
  simp only [call, hspan, byteSize_cons, Nat.add_assoc]

theorem call_lexeme {c : Char} (hc : isBlank c = false) (offset : Nat) (text : List Char) :
    call ⟨offset, c :: text⟩ =
      ((lexeme (c :: text)).token offset,
        ⟨offset + byteSize (lexeme (c :: text)).taken, (lexeme (c :: text)).rest⟩) := by
  have hspan : (c :: text).span isBlank = ([], c :: text) := by
    simp [List.span_eq_takeWhile_dropWhile, hc]
  simp only [call, hspan, byteSize_nil, Nat.add_zero]
  rfl

theorem tokenAt_lexeme_zero {c : Char} (hc : isBlank c = false) (offset : Nat) (text : List Char) :
    tokenAt ⟨offset, c :: text⟩ 0 = (lexeme (c :: text)).token offset := by
  rw [tokenAt, call_lexeme hc]

theorem tokenAt_lexeme_succ {c : Char} (hc : isBlank c = false) (offset : Nat) (text : List Char) (n : Nat) :
    tokenAt ⟨offset, c :: text⟩ (n + 1) =
      tokenAt ⟨offset + byteSize (lexeme (c :: text)).taken, (lexeme (c :: text)).rest⟩ n := by
  rw [tokenAt, call_lexeme hc]

theorem tokenAt_blank {c : Char} (hc : isBlank c = true) (offset : Nat) (text : List Char) (n : Nat) :
    tokenAt ⟨offset, c :: text⟩ n = tokenAt ⟨offset + c.utf8Size, text⟩ n := by
  cases n <;> simp only [tokenAt, call_blank hc]

theorem tokenAt_end (offset n : Nat) : tokenAt ⟨offset, []⟩ n = endAt offset := by
  induction n with
  | zero => rfl
  | succ n ih => exact ih

end Scanner

/-- The calls of a scanner come to the end of the text and stay there. The tokens up to that point are those
that scanning the whole text gives. -/
theorem exists_calls (offset : Nat) (text : List Char) {fuel : Nat} (hfuel : text.length ≤ fuel) :
    ∃ n ≤ text.length,
      scanFrom (fuel + 1) offset text = (List.range (n + 1)).map (Scanner.tokenAt ⟨offset, text⟩) ∧
      (∀ k < n, (Scanner.tokenAt ⟨offset, text⟩ k).kind ≠ .endOfText) ∧
      ∀ k, n ≤ k → Scanner.tokenAt ⟨offset, text⟩ k = endAt (offset + byteSize text) := by
  induction text using lexeme_induction generalizing offset fuel with
  | nil => exact ⟨0, Nat.le_refl 0, rfl, nofun, fun k _ => Scanner.tokenAt_end offset k⟩
  | blank c text hc ih =>
    obtain ⟨n, hn, hscan, hbefore, hafter⟩ := ih (offset + c.utf8Size) (Nat.le_of_succ_le hfuel)
    have htokens : Scanner.tokenAt ⟨offset, c :: text⟩ = Scanner.tokenAt ⟨offset + c.utf8Size, text⟩ :=
      funext (Scanner.tokenAt_blank hc offset text)
    rw [scanFrom_blank hc, htokens, byteSize_cons, ← Nat.add_assoc]
    exact ⟨n, Nat.le_succ_of_le hn, hscan, hbefore, hafter⟩
  | lexeme c text hc ih =>
    have hrest := length_rest_lt c text
    obtain ⟨fuel, rfl⟩ := Nat.exists_eq_succ_of_ne_zero (Nat.ne_zero_of_lt hfuel)
    have hlength : (lexeme (c :: text)).rest.length ≤ fuel := Nat.le_of_lt_succ (Nat.lt_of_lt_of_le hrest hfuel)
    have hsize : byteSize (c :: text) =
        byteSize (lexeme (c :: text)).taken + byteSize (lexeme (c :: text)).rest := by
      rw [← byteSize_append, lexeme_append_eq]
    obtain ⟨n, hn, hscan, hbefore, hafter⟩ := ih (offset + byteSize (lexeme (c :: text)).taken) hlength
    refine ⟨n + 1, Nat.lt_of_le_of_lt hn hrest, ?_, fun k hk => ?_, fun k hk => ?_⟩
    · have htail : (List.range (n + 1)).map (Scanner.tokenAt ⟨offset, c :: text⟩ ∘ Nat.succ) =
          scanFrom (fuel + 1) (offset + byteSize (lexeme (c :: text)).taken) (lexeme (c :: text)).rest := by
        rw [hscan]
        exact List.map_congr_left fun k _ => Scanner.tokenAt_lexeme_succ hc offset text k
      rw [scanFrom_lexeme hc, List.range_succ_eq_map, List.map_cons, List.map_map, htail,
        Scanner.tokenAt_lexeme_zero hc]
    · cases k with
      | zero =>
        rw [Scanner.tokenAt_lexeme_zero hc]
        exact kind_lexeme_ne_endOfText c text
      | succ k =>
        rw [Scanner.tokenAt_lexeme_succ hc]
        exact hbefore k (Nat.lt_of_succ_lt_succ hk)
    · obtain ⟨k, rfl⟩ := Nat.exists_eq_add_one.mpr (Nat.zero_lt_of_lt hk)
      rw [Scanner.tokenAt_lexeme_succ hc, hafter k (Nat.le_of_succ_le_succ hk), hsize, Nat.add_assoc]

/-! ## Ends of lexemes -/

/-- A string literal that is closed ends with its quote. -/
theorem getLast?_lexString {quote : Char} {text : List Char} (h : (lexString quote text).kind ≠ .unknown) :
    (lexString quote text).taken.getLast? = some quote := by
  fun_induction lexString quote text with
  | case1 => exact absurd rfl h
  | case2 text => rfl
  | case3 => exact absurd rfl h
  | case4 escaped text hescaped ih =>
    simp only [Lexeme.after] at h ⊢
    rw [List.getLast?_append, ih h, Option.some_or]
  | case5 c text hquote hbackslash ih =>
    simp only [Lexeme.after] at h ⊢
    rw [List.getLast?_append, ih h, Option.some_or]

theorem not_isBlank_of_isExponent {text : List Char} (h : IsExponent text) : ∀ c ∈ text, isBlank c = false := by
  rcases h with rfl | ⟨mark, sign, digits, hmark, hsign, -, hdigits, rfl⟩
  · exact List.forall_mem_nil _
  · have hsigns : ∀ sign ∈ [[], ['+'], ['-']], sign.all (!isBlank ·) = true := by decide
    have hsign : ∀ c ∈ sign, isBlank c = false := by simpa using hsigns sign hsign
    refine List.forall_mem_cons.mpr ⟨?_, List.forall_mem_append.mpr ⟨hsign, fun c hc => ?_⟩⟩
    · rcases hmark with rfl | rfl <;> decide
    · exact Text.not_isBlank_of_isDigit (hdigits c hc)

theorem not_isBlank_of_isFraction {text : List Char} (h : IsFraction text) : ∀ c ∈ text, isBlank c = false := by
  rcases h with rfl | ⟨digits, hdigits, rfl⟩
  · exact List.forall_mem_nil _
  · exact List.forall_mem_cons.mpr ⟨by decide, fun c hc => Text.not_isBlank_of_isDigit (hdigits c hc)⟩

theorem not_isBlank_of_mem_lexNumber (text : List Char) : ∀ c ∈ (lexNumber text).taken, isBlank c = false := by
  have hwhole := (of_span_eq (Prod.eta (text.span isDigit)).symm).1
  simp only [lexNumber, List.append_assoc]
  refine List.forall_mem_append.mpr ⟨fun c hc => Text.not_isBlank_of_isDigit (hwhole c hc), ?_⟩
  exact List.forall_mem_append.mpr
    ⟨not_isBlank_of_isFraction (isFraction_splitFraction _), not_isBlank_of_isExponent (isExponent_splitExponent _)⟩

theorem not_isBlank_of_mem_lexSymbol {text : List Char} (h : (lexSymbol text).kind ≠ .unknown) :
    ∀ c ∈ (lexSymbol text).taken, isBlank c = false := by
  have hspelling : ∀ kind ∈ symbols, kind.spelling.toList.all (!isBlank ·) = true := by decide
  unfold lexSymbol at h ⊢
  split at h
  case h_2 => exact absurd rfl h
  case h_1 kind hfound =>
    have hprefix := List.find?_some hfound
    obtain ⟨rest, rfl⟩ := List.isPrefixOf_iff_prefix.mp hprefix
    intro c hc
    simp only [← String.length_toList, List.take_left] at hc
    have hall := List.all_eq_true.mp (hspelling kind (List.mem_of_find?_eq_some hfound)) c hc
    rwa [Bool.not_eq_true'] at hall

/-- A lexeme of a known kind ends with no blank. -/
theorem last_lexeme_not_blank {c : Char} {text : List Char} (h : (lexeme (c :: text)).kind ≠ .unknown) :
    ∀ d ∈ (lexeme (c :: text)).taken.getLast?, isBlank d = false := by
  simp only [lexeme] at h ⊢
  split_ifs at h ⊢ with hnumber hquote hword
  · exact fun d hd => not_isBlank_of_mem_lexNumber _ d (List.mem_of_getLast? hd)
  · have hlast : ((lexString c text).after [c] []).taken.getLast? = some c := by
      rw [Lexeme.after, List.getLast?_append, getLast?_lexString h, Option.some_or]
    rw [hlast]
    rintro d ⟨⟩
    rcases hquote with rfl | rfl <;> decide
  · have hall := (of_span_eq (Prod.eta ((c :: text).span isWordChar)).symm).1
    exact fun d hd => Text.not_isBlank_of_isWordChar (hall d (List.mem_of_getLast? hd))
  · exact fun d hd => not_isBlank_of_mem_lexSymbol h d (List.mem_of_getLast? hd)

/-! ## Tiles -/

/-- The tokens cover the text that stands at the offset: only blanks lie before each of them, no token but the
end is empty or starts with a blank, none but those of unknown kind ends with one, and each goes as far as its
characters. -/
inductive Tiles : Nat → List Char → List Token → Prop where
  | last {offset : Nat} {gap : List Char} (hgap : ∀ c ∈ gap, isBlank c = true) :
      Tiles offset gap [endAt (offset + byteSize gap)]
  | next {offset : Nat} {gap rest : List Char} {token : Token} {tokens : List Token}
      (hgap : ∀ c ∈ gap, isBlank c = true)
      (hfirst : ∃ c cs, token.text.toList = c :: cs ∧ isBlank c = false)
      (hlast : token.kind ≠ .unknown → ∀ c ∈ token.text.toList.getLast?, isBlank c = false)
      (hstart : token.start = offset + byteSize gap)
      (hstop : token.stop = token.start + byteSize token.text.toList)
      (hrest : Tiles token.stop rest tokens) :
      Tiles offset (gap ++ (token.text.toList ++ rest)) (token :: tokens)

/-- A blank in front makes the first gap larger. -/
theorem Tiles.blank {c : Char} (hc : isBlank c = true) {offset : Nat} {text : List Char} {tokens : List Token}
    (h : Tiles (offset + c.utf8Size) text tokens) : Tiles offset (c :: text) tokens := by
  cases h with
  | last hgap =>
    rw [Nat.add_assoc, ← byteSize_cons]
    exact .last (List.forall_mem_cons.mpr ⟨hc, hgap⟩)
  | next hgap hfirst hlast hstart hstop hrest =>
    rw [Nat.add_assoc, ← byteSize_cons] at hstart
    exact .next (List.forall_mem_cons.mpr ⟨hc, hgap⟩) hfirst hlast hstart hstop hrest

theorem tiles_scanFrom (offset : Nat) (text : List Char) {fuel : Nat} (hfuel : text.length ≤ fuel) :
    Tiles offset text (scanFrom (fuel + 1) offset text) := by
  induction text using lexeme_induction generalizing offset fuel with
  | nil => exact .last (List.forall_mem_nil _)
  | blank c text hc ih =>
    rw [scanFrom_blank hc]
    exact (ih _ (Nat.le_of_succ_le hfuel)).blank hc
  | lexeme c text hc ih =>
    have hrest := length_rest_lt c text
    obtain ⟨fuel, rfl⟩ := Nat.exists_eq_succ_of_ne_zero (Nat.ne_zero_of_lt hfuel)
    have htext : ((lexeme (c :: text)).token offset).text.toList = (lexeme (c :: text)).taken :=
      String.toList_ofList
    have hfirst : ∃ d ds, ((lexeme (c :: text)).token offset).text.toList = d :: ds ∧ isBlank d = false := by
      obtain ⟨d, ds, htaken⟩ := List.exists_cons_of_ne_nil (taken_lexeme_ne_nil c text)
      have hwhole := lexeme_append_eq (c :: text)
      rw [htaken, List.cons_append] at hwhole
      exact ⟨d, ds, htext.trans htaken, (List.cons.inj hwhole).1 ▸ hc⟩
    have hlast : (lexeme (c :: text)).kind ≠ .unknown →
        ∀ d ∈ ((lexeme (c :: text)).token offset).text.toList.getLast?, isBlank d = false := by
      rw [htext]
      exact last_lexeme_not_blank
    have htiles := Tiles.next (List.forall_mem_nil _) hfirst hlast (Nat.add_zero offset).symm
      (congrArg (offset + byteSize ·) htext.symm)
      (ih (offset + byteSize (lexeme (c :: text)).taken) (Nat.le_of_lt_succ (Nat.lt_of_lt_of_le hrest hfuel)))
    rw [List.nil_append, htext, lexeme_append_eq] at htiles
    rw [scanFrom_lexeme hc]
    exact htiles

theorem tiles_scan (text : String) : Tiles 0 text.toList (scan text) :=
  tiles_scanFrom 0 text.toList (Nat.le_refl _)

/-! ## Where the tokens stand -/

/-- The part of a text between two offsets. -/
def slice (text : String) (start stop : Nat) : String := String.Pos.Raw.extract text ⟨start⟩ ⟨stop⟩

theorem byteSize_eq_utf8Len (text : List Char) : byteSize text = String.utf8Len text := by
  induction text with
  | nil => rfl
  | cons c text ih => rw [byteSize_cons, String.utf8Len_cons, ih, Nat.add_comm]

theorem byteSize_toList (text : String) : byteSize text.toList = text.utf8ByteSize := by
  rw [byteSize_eq_utf8Len, ← String.utf8ByteSize_ofList, String.ofList_toList]

theorem slice_append (before part after : List Char) :
    slice (String.ofList (before ++ (part ++ after))) (byteSize before) (byteSize before + byteSize part) =
      String.ofList part := by
  rw [slice, byteSize_eq_utf8Len, byteSize_eq_utf8Len, ← List.append_assoc, String.extract_of_valid]

theorem isValid_byteSize (before after : List Char) :
    String.Pos.Raw.IsValid (String.ofList (before ++ after)) ⟨byteSize before⟩ := by
  refine String.Pos.Raw.isValid_iff_exists_append.mpr
    ⟨String.ofList before, String.ofList after, String.ofList_append, ?_⟩
  rw [byteSize_eq_utf8Len, ← String.utf8ByteSize_ofList]
  rfl

/-- The token is what stands between its offsets, which do not cut a character in two. -/
structure StandsIn (text : String) (token : Token) : Prop where
  start_le_stop : token.start ≤ token.stop
  valid_start : String.Pos.Raw.IsValid text ⟨token.start⟩
  valid_stop : String.Pos.Raw.IsValid text ⟨token.stop⟩
  slice_eq : slice text token.start token.stop = token.text

theorem standsIn_append {before : List Char} {token : Token} (hstart : token.start = byteSize before)
    (hstop : token.stop = token.start + byteSize token.text.toList) (after : List Char) :
    token.StandsIn (String.ofList (before ++ (token.text.toList ++ after))) where
  start_le_stop := by omega
  valid_start := by
    rw [hstart]
    exact isValid_byteSize _ _
  valid_stop := by
    rw [hstop, hstart, ← byteSize_append, ← List.append_assoc]
    exact isValid_byteSize _ _
  slice_eq := by
    rw [hstop, hstart, slice_append, String.ofList_toList]

/-- The parts of a text before each token, back to the one before it. -/
def gaps (text : String) : Nat → List Token → List String
  | _, [] => []
  | stop, token :: tokens => slice text stop token.start :: gaps text token.stop tokens

namespace Tiles

variable {offset : Nat} {text : List Char} {tokens : List Token}

theorem ne_nil (h : Tiles offset text tokens) : tokens ≠ [] := by
  cases h <;> exact List.cons_ne_nil _ _

/-- The text starts with blanks, and the first token stands after them. -/
theorem exists_gap (h : Tiles offset text tokens) :
    ∃ gap rest token others, text = gap ++ rest ∧ tokens = token :: others ∧ (∀ c ∈ gap, isBlank c = true) ∧
      token.start = offset + byteSize gap := by
  cases h with
  | last hgap => exact ⟨text, [], _, [], (List.append_nil text).symm, rfl, hgap, rfl⟩
  | next hgap _ _ hstart => exact ⟨_, _, _, _, rfl, rfl, hgap, hstart⟩

theorem standsIn (h : Tiles offset text tokens) (front : List Char) (hoffset : offset = byteSize front) :
    ∀ token ∈ tokens, token.StandsIn (String.ofList (front ++ text)) := by
  induction h generalizing front with
  | @last offset gap _ =>
    have hstart : (endAt (offset + byteSize gap)).start = byteSize (front ++ gap) := by
      rw [byteSize_append, ← hoffset]
      rfl
    have hlast := standsIn_append hstart rfl []
    rw [toList_text_endAt, List.append_nil, List.append_nil] at hlast
    exact List.forall_mem_singleton.mpr hlast
  | @next offset gap rest token tokens _ _ _ hstart hstop _ ih =>
    have hsize : token.start = byteSize (front ++ gap) := by rw [byteSize_append, hstart, hoffset]
    have hfirst := standsIn_append hsize hstop rest
    have hothers := ih (front ++ gap ++ token.text.toList) (by rw [byteSize_append, hstop, hsize])
    rw [List.append_assoc] at hfirst
    rw [List.append_assoc, List.append_assoc] at hothers
    exact List.forall_mem_cons.mpr ⟨hfirst, hothers⟩

theorem offset_le (h : Tiles offset text tokens) : ∀ token ∈ tokens, offset ≤ token.start := by
  induction h with
  | last => exact List.forall_mem_singleton.mpr (Nat.le_add_right _ _)
  | next _ _ _ hstart hstop _ ih =>
    refine List.forall_mem_cons.mpr ⟨by omega, fun token hmem => ?_⟩
    have hle := ih token hmem
    omega

/-- Each token ends before the next one starts. -/
theorem pairwise (h : Tiles offset text tokens) : tokens.Pairwise fun t u => t.stop ≤ u.start := by
  induction h with
  | last => exact List.pairwise_singleton _ _
  | next _ _ _ _ _ hrest ih => exact List.pairwise_cons.mpr ⟨hrest.offset_le, ih⟩

/-- All tokens but the end have characters, and the first one is not a blank. -/
theorem first_not_blank (h : Tiles offset text tokens) :
    ∀ token ∈ tokens.dropLast,
      token.start < token.stop ∧ ∃ c cs, token.text.toList = c :: cs ∧ isBlank c = false := by
  induction h with
  | last => exact List.forall_mem_nil _
  | next _ hfirst _ _ hstop hrest ih =>
    rw [List.dropLast_cons_of_ne_nil hrest.ne_nil]
    refine List.forall_mem_cons.mpr ⟨⟨?_, hfirst⟩, ih⟩
    obtain ⟨c, cs, htext, -⟩ := hfirst
    have hpos := c.utf8Size_pos
    rw [hstop, htext, byteSize_cons]
    omega

/-- There are no more tokens than bytes, the end aside. -/
theorem length_le (h : Tiles offset text tokens) : tokens.length ≤ byteSize text + 1 := by
  induction h with
  | last => exact Nat.le_add_left _ _
  | next _ hfirst _ _ _ _ ih =>
    obtain ⟨c, cs, htext, -⟩ := hfirst
    have hpos := c.utf8Size_pos
    rw [htext, byteSize_append, byteSize_append, byteSize_cons, List.length_cons]
    omega

/-- Only blanks lie before each token, and with the tokens they make the text. -/
theorem gaps_blank_join (h : Tiles offset text tokens) (front : List Char) (hoffset : offset = byteSize front) :
    (∀ gap ∈ gaps (String.ofList (front ++ text)) offset tokens, ∀ c ∈ gap.toList, isBlank c = true) ∧
      String.join (List.zipWith (fun gap token => gap ++ token.text)
        (gaps (String.ofList (front ++ text)) offset tokens) tokens) = String.ofList text := by
  induction h generalizing front with
  | @last offset gap hgap =>
    have hslice : slice (String.ofList (front ++ gap)) offset (endAt (offset + byteSize gap)).start =
        String.ofList gap := by
      have hall := slice_append front gap []
      rwa [List.append_nil, ← hoffset] at hall
    simp only [gaps, hslice, List.zipWith_cons_cons, List.zipWith_nil_left, text_endAt]
    refine ⟨List.forall_mem_singleton.mpr (by rwa [String.toList_ofList]), ?_⟩
    simp
  | @next offset gap rest token tokens hgap _ _ hstart hstop _ ih =>
    have hslice : slice (String.ofList (front ++ (gap ++ (token.text.toList ++ rest)))) offset token.start =
        String.ofList gap := by
      rw [hstart, hoffset, slice_append]
    have hothers := ih (front ++ gap ++ token.text.toList)
      (by rw [byteSize_append, byteSize_append, hstop, hstart, hoffset])
    rw [List.append_assoc, List.append_assoc] at hothers
    simp only [gaps, hslice, List.zipWith_cons_cons]
    refine ⟨List.forall_mem_cons.mpr ⟨by rwa [String.toList_ofList], hothers.1⟩, ?_⟩
    rw [String.join_cons, hothers.2, String.ofList_append, String.ofList_append, String.ofList_toList,
      String.append_assoc]

end Tiles

/-! ## Quoted texts -/

/-- The text in quotes, with the quote and backslashes escaped. -/
def quotedWith (quote : Char) (value : String) : String :=
  String.ofList (quote :: (Piece.escapeFor quote value.toList ++ [quote]))

theorem scanFrom_nil (fuel offset : Nat) : scanFrom fuel offset [] = [endAt offset] := by
  cases fuel <;> rfl

theorem lexeme_quotedWith {quote : Char} (hquote : quote = '"' ∨ quote = '\'') (value : String) :
    lexeme (quote :: (Piece.escapeFor quote value.toList ++ [quote])) =
      { kind := .string, taken := (quotedWith quote value).toList, rest := [], value := value.toList } := by
  have hunescape : unescape quote = quote := by rcases hquote with rfl | rfl <;> rfl
  have hbackslash : quote ≠ '\\' := by rcases hquote with rfl | rfl <;> decide
  have hnumber : startsNumber (quote :: (Piece.escapeFor quote value.toList ++ [quote])) = false := by
    rcases hquote with rfl | rfl <;> exact Piece.startsNumber_eq (by decide) _
  have hstring := Piece.lexString_escapeFor hunescape hbackslash value.toList []
  simp only [lexeme, hnumber, hquote, hstring, quotedWith, String.toList_ofList]
  rfl

/-- A text in quotes is one literal that stands for it. -/
theorem scan_quotedWith {quote : Char} (hquote : quote = '"' ∨ quote = '\'') (value : String) :
    scan (quotedWith quote value) =
      [{ kind := .string, start := 0, stop := (quotedWith quote value).utf8ByteSize,
         text := quotedWith quote value, value, fault := none },
       endAt (quotedWith quote value).utf8ByteSize] := by
  have hblank : isBlank quote = false := by rcases hquote with rfl | rfl <;> decide
  have htext : (quotedWith quote value).toList = quote :: (Piece.escapeFor quote value.toList ++ [quote]) :=
    String.toList_ofList
  have hsize := byteSize_toList (quotedWith quote value)
  simp only [scan]
  rw [htext, scanFrom_lexeme hblank, lexeme_quotedWith hquote, scanFrom_nil, hsize, Nat.zero_add]
  simp only [Lexeme.token, hsize, Nat.zero_add, String.ofList_toList]

/-! ## Texts and their tokens -/

/-- The tokens tile the text. Calling a scanner again and again comes to the end of the text after at most one
call for each character, and stays there; the tokens up to that point are those of the text. Those before the
end are not empty and start with no blank, all of them are what stands between their offsets, which are
boundaries of characters, and each ends before the next one starts. Only blanks lie between them, and the gaps
and the tokens, in turn, are the text again. A text in quotes of either kind is one literal that stands for
it. -/
theorem scan_tiles (text : String) :
    (∃ n ≤ text.length,
      scan text = (List.range (n + 1)).map (Scanner.tokenAt ⟨0, text.toList⟩) ∧
      (∀ k < n, (Scanner.tokenAt ⟨0, text.toList⟩ k).kind ≠ .endOfText) ∧
      ∀ k, n ≤ k → Scanner.tokenAt ⟨0, text.toList⟩ k = endAt text.utf8ByteSize) ∧
    (∀ token ∈ body text,
      token.start < token.stop ∧ ∃ c cs, token.text.toList = c :: cs ∧ isBlank c = false) ∧
    (∀ token ∈ scan text, token.StandsIn text) ∧
    ((scan text).Pairwise fun t u => t.stop ≤ u.start) ∧
    (∀ gap ∈ gaps text 0 (scan text), ∀ c ∈ gap.toList, isBlank c = true) ∧
    String.join (List.zipWith (fun gap token => gap ++ token.text) (gaps text 0 (scan text)) (scan text)) =
      text ∧
    ∀ (value : String) (quote : Char), quote = '"' ∨ quote = '\'' →
      scan (quotedWith quote value) =
        [{ kind := .string, start := 0, stop := (quotedWith quote value).utf8ByteSize,
           text := quotedWith quote value, value, fault := none },
         endAt (quotedWith quote value).utf8ByteSize] := by
  have htiles := tiles_scan text
  have hstands := htiles.standsIn [] rfl
  have hgaps := htiles.gaps_blank_join [] rfl
  rw [List.nil_append, String.ofList_toList] at hstands hgaps
  obtain ⟨n, hn, hscan, hbefore, hafter⟩ := exists_calls 0 text.toList (Nat.le_refl _)
  rw [byteSize_toList, Nat.zero_add] at hafter
  rw [String.length_toList] at hn
  exact ⟨⟨n, hn, hscan, hbefore, hafter⟩, htiles.first_not_blank, hstands, htiles.pairwise, hgaps.1, hgaps.2,
    fun value quote hquote => scan_quotedWith hquote value⟩

theorem scan_tiles_quotes :
    (∀ token ∈ scan " é<= 'it\\'s' ", token.StandsIn " é<= 'it\\'s' ") ∧
      scan (quotedWith '\'' "it's \\n") =
        [{ kind := .string, start := 0, stop := 11, text := "'it\\'s \\\\n'", value := "it's \\n", fault := none },
         endAt 11] :=
  ⟨(scan_tiles " é<= 'it\\'s' ").2.2.1,
    (scan_tiles " é<= 'it\\'s' ").2.2.2.2.2.2 "it's \\n" '\'' (.inr rfl)⟩

end FlowPath.Token
