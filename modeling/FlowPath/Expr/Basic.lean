import FlowPath.Token.Basic

/-!
# Expressions

The trees of conditions and assignments. Every node carries a note; the parser notes where the node
stands in the text and how high the tree below it is.
-/

namespace FlowPath

/-- An expression whose nodes carry notes of type `α`. -/
inductive Expr (α : Type) where
  /-- No expression at all; it stands for `undefined`. -/
  | missing (note : α)
  | number (note : α) (value : Float)
  | string (note : α) (value : String)
  | boolean (note : α) (value : Bool)
  | identifier (note : α) (name : String)
  | array (note : α) (elements : List (Expr α))
  | element (note : α) (object index : Expr α)
  | property (note : α) (object : Expr α) (name : String)
  | unary (note : α) (operator : Token.Kind) (operand : Expr α)
  | binary (note : α) (operator : Token.Kind) (left right : Expr α)
  | conditional (note : α) (condition whenTrue whenFalse : Expr α)
  | assign (note : α) (operator : Token.Kind) (target value : Expr α)

/-- A stretch of text, in bytes. -/
structure Span where
  start : Nat := 0
  stop : Nat := 0
deriving DecidableEq, Repr

/-- Where a node stands, and the height of its tree. -/
structure Place where
  span : Span
  height : Nat
deriving DecidableEq, Repr

namespace Expr

variable {α : Type}

def note : Expr α → α
  | .missing note => note
  | .number note _ => note
  | .string note _ => note
  | .boolean note _ => note
  | .identifier note _ => note
  | .array note _ => note
  | .element note _ _ => note
  | .property note _ _ => note
  | .unary note _ _ => note
  | .binary note _ _ _ => note
  | .conditional note _ _ _ => note
  | .assign note _ _ _ => note

/-- The trees directly below, in the order of the text. -/
def children : Expr α → List (Expr α)
  | .array _ elements => elements
  | .element _ object index => [object, index]
  | .property _ object _ => [object]
  | .unary _ _ operand => [operand]
  | .binary _ _ left right => [left, right]
  | .conditional _ condition whenTrue whenFalse => [condition, whenTrue, whenFalse]
  | .assign _ _ target value => [target, value]
  | _ => []

/-- The largest of some heights. -/
def highest (heights : List Nat) : Nat := heights.foldl max 0

/-- Expressions, and the parsing of them, go at most so many levels deep. -/
def mostLevels : Nat := 256

end Expr

end FlowPath
