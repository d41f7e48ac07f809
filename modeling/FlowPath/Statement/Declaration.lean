import FlowPath.Statement.Basic
import FlowPath.Text.Word

/-!
# Heads of functions

The head of a function is kept as text. Its name stands between the word `function` and the first
parenthesis, its parameters between that parenthesis and the next closing one.
-/

namespace FlowPath.Statement

open FlowPath.Text (isWordChar trim)

/-- The words of a text: its longest stretches of word characters. `word` holds the characters of
the word at hand, last one first. -/
def wordsFrom (word : List Char) : List Char → List String
  | [] => if word.isEmpty then [] else [String.ofList word.reverse]
  | c :: text =>
    if isWordChar c then wordsFrom (c :: word) text
    else if word.isEmpty then wordsFrom [] text
    else String.ofList word.reverse :: wordsFrom [] text

/-- The names of the parameters in the head of a function. -/
def parameterNames (declaration : String) : List String :=
  match declaration.toList.dropWhile (· ≠ '(') with
  | [] => []
  | _ :: rest => wordsFrom [] (rest.takeWhile (· ≠ ')'))

/-- Takes a word off the front of a text. -/
def dropWord? (word text : List Char) : Option (List Char) :=
  if word.isPrefixOf text then some (text.drop word.length) else none

/-- The name in the head of a function, if it has one. A star in front of the name, the mark of a
generator, does not belong to it. -/
def nameInHead? (declaration : String) : Option String := do
  let head := trim (declaration.toList.takeWhile (· ≠ '('))
  let afterWord ← dropWord? "function".toList head
  let name := trim ((trim afterWord).dropWhile (· = '*'))
  if name.isEmpty then none else some (String.ofList name)

/-- The name of a function. -/
def functionName? (s : Statement) : Option String :=
  if s.kind = .function then nameInHead? s.text else none

/-- The function to look at: the first one of the given name, or without a name the first function
directly below the root, or the root itself if there is none. -/
def select? (root : Statement) : Option String → Option Statement
  | some name => root.functions.find? fun function => function.functionName? == some name
  | none => some (root.functions.head?.getD root)

end FlowPath.Statement
