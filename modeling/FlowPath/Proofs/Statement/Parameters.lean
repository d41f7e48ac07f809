import FlowPath.Proofs.Token.Scan
import FlowPath.Statement.Declaration
import Mathlib.Data.List.Basic

/-!
# The parameters in the head of a function

The names of the parameters are the words of a text: its longest stretches of word characters, in order (`Words`).
The text starts behind the first parenthesis of the head. It ends with the first closing parenthesis, which need not
be the one that matches (`enclosed?`). So the words up to the matching one are found exactly if there are none behind
the first closing one (`parameterNames_enclosed`), as in all lists of parameters without parentheses.
-/

namespace FlowPath.Statement

open FlowPath.Text (isWordChar)

/-! ## Words -/

/-- The words of a text in order. A word is not empty, and the characters next to it are no word characters. -/
inductive Words : List Char → List String → Prop where
  | none {gap : List Char} (hgap : ∀ c ∈ gap, isWordChar c = false) : Words gap []
  | word {gap word rest : List Char} {words : List String} (hgap : ∀ c ∈ gap, isWordChar c = false)
    (hne : word ≠ []) (hword : ∀ c ∈ word, isWordChar c = true)
    (hend : ∀ c ∈ rest.head?, isWordChar c = false) (hrest : Words rest words) :
    Words (gap ++ word ++ rest) (String.ofList word :: words)

theorem Words.cons {c : Char} (hc : isWordChar c = false) {text : List Char} {words : List String}
    (h : Words text words) : Words (c :: text) words := by
  cases h with
  | none hgap => exact .none (List.forall_mem_cons.mpr ⟨hc, hgap⟩)
  | word hgap hne hword hend hrest => exact .word (List.forall_mem_cons.mpr ⟨hc, hgap⟩) hne hword hend hrest

/-- A text that starts with a word. -/
theorem Words.start {word rest : List Char} {words : List String} (hne : word ≠ [])
    (hword : ∀ c ∈ word, isWordChar c = true) (hend : ∀ c ∈ rest.head?, isWordChar c = false)
    (hrest : Words rest words) : Words (word ++ rest) (String.ofList word :: words) :=
  @Words.word [] word rest words (by simp) hne hword hend hrest

/-- With a word at hand, the words are those of the text with this word in front. -/
theorem words_wordsFrom {done : List Char} (hdone : ∀ c ∈ done, isWordChar c = true) (text : List Char) :
    Words (done.reverse ++ text) (wordsFrom done text) := by
  have hword {word : List Char} (hword : ∀ c ∈ word, isWordChar c = true) :
      ∀ c ∈ word.reverse, isWordChar c = true := fun c hc => hword c (List.mem_reverse.mp hc)
  fun_induction wordsFrom done text with
  | case1 done hempty =>
    rw [List.isEmpty_iff.mp hempty]
    exact .none (by simp)
  | case2 done hsome =>
    exact .start (by simpa using hsome) (hword hdone) (by simp) (.none (by simp))
  | case3 done c text hc ih =>
    simpa using ih (List.forall_mem_cons.mpr ⟨hc, hdone⟩)
  | case4 done c text hc hempty ih =>
    rw [List.isEmpty_iff.mp hempty]
    exact .cons (by simpa using hc) (ih (by simp))
  | case5 done c text hc hsome ih =>
    have hbreak : isWordChar c = false := by simpa using hc
    refine .start (by simpa using hsome) (hword hdone) ?_ (.cons hbreak (ih (by simp)))
    rintro _ ⟨⟩
    exact hbreak

theorem wordsFrom_gap {gap : List Char} (hgap : ∀ c ∈ gap, isWordChar c = false) (text : List Char) :
    wordsFrom [] (gap ++ text) = wordsFrom [] text := by
  induction gap with
  | nil => rfl
  | cons c gap ih =>
    obtain ⟨hc, hgap⟩ := List.forall_mem_cons.mp hgap
    rw [List.cons_append, wordsFrom, if_neg (by simp [hc]), ih hgap]
    rfl

theorem wordsFrom_word {word : List Char} (hword : ∀ c ∈ word, isWordChar c = true) (done text : List Char) :
    wordsFrom done (word ++ text) = wordsFrom (word.reverse ++ done) text := by
  induction word generalizing done with
  | nil => rfl
  | cons c word ih =>
    obtain ⟨hc, hword⟩ := List.forall_mem_cons.mp hword
    rw [List.cons_append, wordsFrom, if_pos hc, ih hword, List.reverse_cons, List.append_assoc,
      List.singleton_append]

/-- Where the next character is no word character, the word at hand is complete. -/
theorem wordsFrom_of_head {done text : List Char} (hne : done ≠ [])
    (hend : ∀ c ∈ text.head?, isWordChar c = false) :
    wordsFrom done text = String.ofList done.reverse :: wordsFrom [] text := by
  have hsome : ¬ done.isEmpty = true := by simpa using hne
  cases text with
  | nil =>
    rw [wordsFrom, if_neg hsome]
    rfl
  | cons c text =>
    have hgap : ∀ d ∈ [c], isWordChar d = false := by simpa using hend c rfl
    rw [wordsFrom, if_neg (by simp [hend c rfl]), if_neg hsome, ← wordsFrom_gap hgap text]
    rfl

theorem words_iff {text : List Char} {words : List String} :
    Words text words ↔ wordsFrom [] text = words := by
  refine ⟨fun h => ?_, fun h => h ▸ words_wordsFrom (List.forall_mem_nil _) text⟩
  induction h with
  | none hgap => simpa [wordsFrom] using wordsFrom_gap hgap []
  | word hgap hne hword hend _ ih =>
    rw [List.append_assoc, wordsFrom_gap hgap, wordsFrom_word hword, List.append_nil,
      wordsFrom_of_head (by simpa using hne) hend, List.reverse_reverse, ih]

/-- A character that is no word character divides the words in front of it from those behind it. -/
theorem wordsFrom_append {c : Char} (hc : isWordChar c = false) (done text more : List Char) :
    wordsFrom done (text ++ c :: more) = wordsFrom done text ++ wordsFrom [] more := by
  fun_induction wordsFrom done text with
  | case1 done hempty =>
    rw [List.isEmpty_iff.mp hempty]
    have hgap : ∀ d ∈ [c], isWordChar d = false := by simpa using hc
    exact wordsFrom_gap hgap more
  | case2 done hsome =>
    rw [List.nil_append, wordsFrom, if_neg (by simp [hc]), if_neg hsome, List.singleton_append]
  | case3 done d text hd ih => rw [List.cons_append, wordsFrom, if_pos hd, ih]
  | case4 done d text hd hempty ih => rw [List.cons_append, wordsFrom, if_neg hd, if_pos hempty, ih]
  | case5 done d text hd hsome ih =>
    rw [List.cons_append, wordsFrom, if_neg hd, if_neg hsome, ih, List.cons_append]

theorem wordsFrom_eq_nil_iff {text : List Char} :
    wordsFrom [] text = [] ↔ ∀ c ∈ text, isWordChar c = false := by
  rw [← words_iff]
  refine ⟨fun h => ?_, .none⟩
  cases h with
  | none hgap => exact hgap

/-! ## Parentheses -/

/-- The text up to the parenthesis that closes one more than are open, where `depth` of them are open. -/
def enclosedFrom? (depth : Nat) : List Char → Option (List Char)
  | [] => none
  | c :: text =>
    if c = ')' then
      match depth with
      | 0 => some []
      | depth + 1 => (enclosedFrom? depth text).map (c :: ·)
    else if c = '(' then (enclosedFrom? (depth + 1) text).map (c :: ·)
    else (enclosedFrom? depth text).map (c :: ·)

/-- The text between the first parenthesis and the one that matches it. -/
def enclosed? (declaration : List Char) : Option (List Char) :=
  match declaration.dropWhile (· ≠ '(') with
  | [] => none
  | _ :: rest => enclosedFrom? 0 rest

theorem exists_of_enclosedFrom? {depth : Nat} {text inside : List Char}
    (h : enclosedFrom? depth text = some inside) : ∃ after, text = inside ++ ')' :: after := by
  have hcons {c : Char} {text inside : List Char} {read : Option (List Char)}
      (ih : ∀ {inside}, read = some inside → ∃ after, text = inside ++ ')' :: after)
      (h : read.map (c :: ·) = some inside) : ∃ after, c :: text = inside ++ ')' :: after := by
    obtain ⟨inner, hread, rfl⟩ := Option.map_eq_some_iff.mp h
    obtain ⟨after, rfl⟩ := ih hread
    exact ⟨after, rfl⟩
  fun_induction enclosedFrom? depth text generalizing inside with
  | case1 => cases h
  | case2 text =>
    cases h
    exact ⟨text, rfl⟩
  | case3 text depth ih => exact hcons ih h
  | case4 depth text hclose ih => exact hcons ih h
  | case5 depth c text hclose hopen ih => exact hcons ih h

/-- The names of the parameters, where the first parenthesis has a matching one: the words up to the first closing
parenthesis. These are the words up to the matching one exactly if there are none between the two. -/
theorem parameterNames_enclosed {declaration : String} {inside : List Char}
    (h : enclosed? declaration.toList = some inside) :
    Words (inside.takeWhile (· ≠ ')')) (parameterNames declaration) ∧
    (Words inside (parameterNames declaration) ↔
      ∀ c ∈ inside.dropWhile (· ≠ ')'), isWordChar c = false) := by
  obtain ⟨front, rest, hinside, hfront, hrest⟩ : ∃ front rest, inside = front ++ rest ∧
      (∀ c ∈ front, decide (c ≠ ')') = true) ∧ ∀ c ∈ rest.head?, decide (c ≠ ')') = false :=
    have ⟨hfront, hinside, hrest⟩ := @Token.of_span_eq (· ≠ ')') inside _ _ rfl
    ⟨_, _, hinside, hfront, hrest⟩
  have hspan : inside.takeWhile (· ≠ ')') = front ∧ inside.dropWhile (· ≠ ')') = rest := by
    rw [← Prod.mk.injEq, ← List.span_eq_takeWhile_dropWhile, hinside]
    exact Token.span_append hfront hrest
  have hnames : parameterNames declaration = wordsFrom [] front := by
    unfold enclosed? at h
    unfold parameterNames
    cases hopen : declaration.toList.dropWhile (· ≠ '(') with
    | nil =>
      rw [hopen] at h
      cases h
    | cons c list =>
      rw [hopen] at h
      obtain ⟨after, hlist⟩ := exists_of_enclosedFrom? h
      have hcut : list.takeWhile (· ≠ ')') = front := by
        have hend : ∀ c ∈ (rest ++ ')' :: after).head?, decide (c ≠ ')') = false := by
          cases rest with
          | nil =>
            rintro c ⟨⟩
            rfl
          | cons c rest => exact hrest
        have hcut := Token.span_append hfront hend
        rw [List.span_eq_takeWhile_dropWhile] at hcut
        rw [hlist, hinside, List.append_assoc]
        exact congrArg Prod.fst hcut
      exact congrArg (wordsFrom []) hcut
  rw [hspan.1, hspan.2, words_iff, words_iff, hnames, hinside]
  refine ⟨rfl, ?_⟩
  cases rest with
  | nil => simp
  | cons c rest =>
    have hc : isWordChar c = false := by
      have hclose : c = ')' := by simpa using hrest c rfl
      rw [hclose]
      decide +kernel
    rw [wordsFrom_append hc, List.append_right_eq_self, wordsFrom_eq_nil_iff, List.forall_mem_cons]
    exact (and_iff_right hc).symm

/-- In `function f(a = g(1), b)` the list ends with the call of `g`, so `b` is no parameter. -/
theorem parameterNames_enclosed_call :
    enclosed? "function f(a = g(1), b)".toList = some "a = g(1), b".toList ∧
    Words "a = g(1".toList (parameterNames "function f(a = g(1), b)") ∧
    ¬ Words "a = g(1), b".toList (parameterNames "function f(a = g(1), b)") := by
  have h : enclosed? "function f(a = g(1), b)".toList = some "a = g(1), b".toList := by decide
  obtain ⟨hfront, hall⟩ := parameterNames_enclosed h
  exact ⟨h, hfront, fun hwords => absurd (hall.mp hwords 'b' (by decide)) (by decide +kernel)⟩

/-- The parameters are not the words up to the matching parenthesis. -/
theorem not_parameterNames_enclosed :
    ¬ ∀ (declaration : String) (inside : List Char), enclosed? declaration.toList = some inside →
      Words inside (parameterNames declaration) := by
  intro h
  have hwords := words_iff.mp (h "function f(a = g(1), b)" "a = g(1), b".toList (by decide))
  revert hwords
  decide +kernel

end FlowPath.Statement
