import FlowPath.Graph.Dot
import Mathlib.Data.List.Basic

/-!
# Reading what is in quotes, line by line

A quoted string ends with the first quote that is not escaped (`readQuoted`). Escaped text is read back without
its carriage returns, whatever stands behind the quotes (`readQuoted_escape`). Text that was not escaped is read
back exactly if it has nothing to escape (`readQuoted_eq_iff`).

Statements that are written a line each come back as lines if there is no end of a line inside them
(`lines_unlines`). Otherwise there are more lines than statements (`length_lines_unlines_eq_iff`).
-/

namespace FlowPath.Graph.Dot

/-! ## Quoted strings -/

/-- The character that is meant by one behind a backslash. -/
def unescape (c : Char) : Char := if c = 'n' then '\n' else c

/-- Reads up to the quote at the end of a quoted string: the text in the quotes and what stands behind them. -/
def readQuoted : List Char → Option (List Char × List Char)
  | [] => none
  | c :: text =>
    if c = '"' then some ([], text)
    else if c = '\\' then
      match text with
      | [] => none
      | escaped :: text => (readQuoted text).map fun (value, rest) => (unescape escaped :: value, rest)
    else (readQuoted text).map fun (value, rest) => (c :: value, rest)

/-- The character stands for itself in a quoted string. -/
def isPlain (c : Char) : Bool := c ≠ '"' && c ≠ '\\'

theorem readQuoted_quote (text : List Char) : readQuoted ('"' :: text) = some ([], text) := by
  rw [readQuoted.eq_def]
  exact if_pos rfl

theorem readQuoted_backslash (c : Char) (text : List Char) :
    readQuoted ('\\' :: c :: text) =
      (readQuoted text).map fun (value, rest) => (unescape c :: value, rest) := by
  rw [readQuoted.eq_def]
  exact (if_neg (by decide)).trans (if_pos rfl)

theorem readQuoted_plain {c : Char} (h : isPlain c = true) (text : List Char) :
    readQuoted (c :: text) = (readQuoted text).map fun (value, rest) => (c :: value, rest) := by
  obtain ⟨hquote, hbackslash⟩ : c ≠ '"' ∧ c ≠ '\\' := by simpa [isPlain] using h
  rw [readQuoted.eq_def]
  exact (if_neg hquote).trans (if_neg hbackslash)

theorem readQuoted_escape (text rest : List Char) :
    readQuoted (escape text ++ '"' :: rest) = some (text.filter (· ≠ '\r'), rest) := by
  induction text with
  | nil => exact readQuoted_quote rest
  | cons c text ih =>
    have hescape : escape (c :: text) = escapeChar c ++ escape text := rfl
    have hescaped (d : Char) : readQuoted ('\\' :: d :: (escape text ++ '"' :: rest)) =
        some (unescape d :: text.filter (· ≠ '\r'), rest) := by
      rw [readQuoted_backslash, ih]
      rfl
    rw [hescape, List.append_assoc]
    by_cases hquote : c = '"'
    · subst hquote
      exact hescaped '"'
    by_cases hbackslash : c = '\\'
    · subst hbackslash
      exact hescaped '\\'
    by_cases hnewline : c = '\n'
    · subst hnewline
      exact hescaped 'n'
    by_cases hreturn : c = '\r'
    · subst hreturn
      exact ih
    · have hplain : isPlain c = true := by simp [isPlain, hquote, hbackslash]
      rw [escapeChar, if_neg hquote, if_neg hbackslash, if_neg hnewline, if_neg hreturn,
        List.singleton_append, readQuoted_plain hplain, ih, List.filter_cons, if_pos (by simp [hreturn])]
      rfl

/-- What is read is shorter than what it is read from. -/
theorem length_readQuoted {text value rest : List Char} (h : readQuoted text = some (value, rest)) :
    value.length + rest.length < text.length := by
  fun_induction readQuoted text generalizing value rest with
  | case1 => cases h
  | case2 =>
    cases h
    simp
  | case3 => cases h
  | case4 escaped text _ ih =>
    obtain ⟨⟨inner, rest⟩, hinner, ⟨⟩⟩ := Option.map_eq_some_iff.mp h
    have := ih hinner
    simp only [List.length_cons]
    omega
  | case5 c text _ _ ih =>
    obtain ⟨⟨inner, rest⟩, hinner, ⟨⟩⟩ := Option.map_eq_some_iff.mp h
    have := ih hinner
    simp only [List.length_cons]
    omega

/-- Text that was not escaped is read back exactly if there is nothing to escape. -/
theorem readQuoted_eq_iff {text rest : List Char} :
    readQuoted (text ++ '"' :: rest) = some (text, rest) ↔ ∀ c ∈ text, isPlain c = true := by
  induction text with
  | nil => simp [readQuoted_quote]
  | cons c text ih =>
    by_cases hplain : isPlain c = true
    · have hstep : readQuoted (c :: text ++ '"' :: rest) = some (c :: text, rest) ↔
          readQuoted (text ++ '"' :: rest) = some (text, rest) := by
        rw [List.cons_append, readQuoted_plain hplain]
        cases readQuoted (text ++ '"' :: rest) <;> simp [Prod.ext_iff]
      rw [hstep, ih, List.forall_mem_cons]
      exact (and_iff_right hplain).symm
    · refine iff_of_false (fun h => ?_) fun h => hplain (h c (List.mem_cons_self ..))
      have hspecial : c = '"' ∨ c = '\\' := by simpa [isPlain, or_iff_not_imp_left] using hplain
      rcases hspecial with rfl | rfl
      · rw [List.cons_append, readQuoted_quote] at h
        cases h
      · -- A backslash takes the next character with it, so there is one less than there should be.
        cases text with
        | nil =>
          rw [List.singleton_append, readQuoted_backslash] at h
          obtain ⟨⟨value, left⟩, -, h⟩ := Option.map_eq_some_iff.mp h
          cases h
        | cons d text =>
          rw [List.cons_append, List.cons_append, readQuoted_backslash] at h
          obtain ⟨⟨value, left⟩, hread, h⟩ := Option.map_eq_some_iff.mp h
          obtain ⟨hvalue, rfl⟩ := Prod.mk.inj h
          obtain ⟨-, rfl⟩ := List.cons.inj hvalue
          have hlength := length_readQuoted hread
          simp only [List.length_cons, List.length_append] at hlength
          omega

theorem newline_not_mem_escape (text : List Char) : '\n' ∉ escape text := by
  intro h
  obtain ⟨c, -, hc⟩ := List.mem_flatMap.mp h
  unfold escapeChar at hc
  split_ifs at hc with hquote hbackslash hnewline hreturn
  · simp at hc
  · simp at hc
  · simp at hc
  · simp at hc
  · exact hnewline (List.mem_singleton.mp hc).symm

/-! ## Lines -/

/-- The lines of a text. -/
def lines (text : List Char) : List (List Char) := linesFrom [] text

theorem linesFrom_append (line text rest : List Char) :
    linesFrom line (text ++ '\n' :: rest) = linesFrom line (text ++ ['\n']) ++ linesFrom [] rest := by
  induction text generalizing line with
  | nil => simp [linesFrom]
  | cons c text ih =>
    rw [List.cons_append, List.cons_append, linesFrom, linesFrom]
    split
    · rw [ih, List.cons_append]
    · exact ih (c :: line)

theorem lines_unlines_eq_flatMap (statements : List (List Char)) :
    lines (unlines statements) = statements.flatMap fun statement => lines (statement ++ ['\n']) := by
  induction statements with
  | nil => rfl
  | cons statement rest ih =>
    have hunlines : unlines (statement :: rest) = statement ++ '\n' :: unlines rest := by simp [unlines]
    rw [List.flatMap_cons, ← ih, hunlines]
    exact linesFrom_append [] statement (unlines rest)

theorem linesFrom_of_not_mem {line text : List Char} (h : '\n' ∉ text) :
    linesFrom line (text ++ ['\n']) = [dropReturn (line.reverse ++ text)] := by
  induction text generalizing line with
  | nil => simp [linesFrom]
  | cons c text ih =>
    obtain ⟨hc, htext⟩ := not_or.mp (mt List.mem_cons.mpr h)
    rw [List.cons_append, linesFrom, if_neg (Ne.symm hc), ih htext, List.reverse_cons, List.append_assoc,
      List.singleton_append]

theorem length_linesFrom (line text : List Char) :
    (linesFrom line (text ++ ['\n'])).length = text.count '\n' + 1 := by
  induction text generalizing line with
  | nil => simp [linesFrom]
  | cons c text ih =>
    rw [List.cons_append, linesFrom, List.count_cons]
    split
    · subst_vars
      simp [ih]
    · rename_i hc
      simp [ih, hc]

/-- A line that ends with another character than a carriage return. -/
theorem dropReturn_append {c : Char} (hc : c ≠ '\r') (line : List Char) :
    dropReturn (line ++ [c]) = line ++ [c] := by
  rw [dropReturn, List.reverse_append, List.reverse_singleton, List.singleton_append]
  split
  · rename_i heq
    exact absurd (List.cons.inj heq).1 hc
  · rfl

/-- There are as many lines as statements exactly if no statement has an end of a line in it. -/
theorem length_lines_unlines_eq_iff {statements : List (List Char)} :
    (lines (unlines statements)).length = statements.length ↔ ∀ s ∈ statements, '\n' ∉ s := by
  rw [lines_unlines_eq_flatMap]
  have hle : ∀ statements : List (List Char),
      statements.length ≤ (statements.flatMap fun s => lines (s ++ ['\n'])).length := by
    intro statements
    induction statements with
    | nil => exact Nat.le_refl 0
    | cons s rest ih =>
      rw [List.flatMap_cons, List.length_append, lines, length_linesFrom, List.length_cons]
      omega
  induction statements with
  | nil => simp
  | cons s rest ih =>
    have hrest := hle rest
    rw [List.flatMap_cons, List.length_append, lines, length_linesFrom, List.length_cons,
      List.forall_mem_cons, ← List.count_eq_zero]
    refine Iff.trans ?_ (and_congr_right fun _ => ih)
    omega

theorem lines_unlines {statements : List (List Char)} (h : ∀ s ∈ statements, '\n' ∉ s)
    (hends : ∀ s ∈ statements, dropReturn s = s) : lines (unlines statements) = statements := by
  rw [lines_unlines_eq_flatMap]
  induction statements with
  | nil => rfl
  | cons s rest ih =>
    obtain ⟨hs, hrest⟩ := List.forall_mem_cons.mp h
    obtain ⟨hend, hends⟩ := List.forall_mem_cons.mp hends
    have hline : lines (s ++ ['\n']) = [s] := by
      rw [lines, linesFrom_of_not_mem hs, List.reverse_nil, List.nil_append, hend]
    rw [List.flatMap_cons, ih hrest hends, hline, List.singleton_append]

end FlowPath.Graph.Dot
