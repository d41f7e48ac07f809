import FlowPath.Token.Basic
import FlowPath.Value.Basic

/-!
# Operators on values

Equality, order and arithmetic. All of them are total: an operator that does not apply gives
`undefined`, and a comparison with not-a-number is false.
-/

namespace FlowPath.Value

/-- Equality of values of the same type. Lists have no identity, so no list equals another. -/
def strictEquals : Value → Value → Bool
  | .undefined, .undefined => true
  | .boolean a, .boolean b => a == b
  | .number a, .number b => a == b
  | .string a, .string b => a == b
  | _, _ => false

/-- Truth values count as numbers. -/
def numberOfBoolean : Value → Value
  | .boolean value => .number (toNumber (.boolean value))
  | value => value

/-- Equality of a number with a text goes by the number that the text writes. -/
def equalPrimitives : Value → Value → Bool
  | .number a, .string b => a == numberOfText b
  | .string a, .number b => numberOfText a == b
  | a, b => strictEquals a b

/-- Equality across types: truth values count as numbers, a list as its text unless it meets another
list, and `undefined` equals only itself. -/
def looseEquals (a b : Value) : Bool :=
  match numberOfBoolean a, numberOfBoolean b with
  | .undefined, .undefined => true
  | .undefined, _ => false
  | _, .undefined => false
  | .array _, .array _ => false
  | a, b => equalPrimitives a.toPrimitive b.toPrimitive

/-- Two texts are compared by their characters, all else by number. -/
def compareWith (texts : String → String → Bool) (numbers : Float → Float → Bool)
    (a b : Value) : Bool :=
  match a.toPrimitive, b.toPrimitive with
  | .string a, .string b => texts a b
  | a, b => numbers a.toNumber b.toNumber

def less (a b : Value) : Bool :=
  compareWith (fun a b => decide (a < b)) (fun a b => decide (a < b)) a b

def greater (a b : Value) : Bool :=
  compareWith (fun a b => decide (a > b)) (fun a b => decide (a > b)) a b

def lessEqual (a b : Value) : Bool :=
  compareWith (fun a b => decide (a ≤ b)) (fun a b => decide (a ≤ b)) a b

def greaterEqual (a b : Value) : Bool :=
  compareWith (fun a b => decide (a ≥ b)) (fun a b => decide (a ≥ b)) a b

/-- The sum of two numbers, or the joined text if one of them is a text. -/
def add (a b : Value) : Value :=
  match a.toPrimitive, b.toPrimitive with
  | .string a, b => .string (a ++ b.display)
  | a, .string b => .string (a.display ++ b)
  | a, b => .number (a.toNumber + b.toNumber)

/-- A function of two numbers as a function of values. -/
def arithmetic (f : Float → Float → Float) (a b : Value) : Value :=
  .number (f a.toNumber b.toNumber)

/-- The value of `left operator right`. -/
def applyBinary (operator : Token.Kind) (left right : Value) : Value :=
  match operator with
  | .plus => add left right
  | .minus => arithmetic (· - ·) left right
  | .star => arithmetic (· * ·) left right
  | .slash => arithmetic (· / ·) left right
  | .percent => arithmetic Binary64.remainder left right
  | .starStar => arithmetic Float.pow left right
  | .less => .boolean (less left right)
  | .greater => .boolean (greater left right)
  | .lessEqual => .boolean (lessEqual left right)
  | .greaterEqual => .boolean (greaterEqual left right)
  | .equalEqual => .boolean (looseEquals left right)
  | .bangEqual => .boolean (!looseEquals left right)
  | .equalEqualEqual => .boolean (strictEquals left right)
  | .bangEqualEqual => .boolean (!strictEquals left right)
  | .andAnd => if left.isTrue then right else left
  | .orOr => if left.isTrue then left else right
  | _ => .undefined

/-- The value of `operator operand`. -/
def applyUnary (operator : Token.Kind) (operand : Value) : Value :=
  match operator with
  | .bang => .boolean (!operand.isTrue)
  | .minus => .number (-operand.toNumber)
  | .plus => .number operand.toNumber
  | _ => .undefined

/-- Lists and texts have a length and no other property. -/
def property (object : Value) (name : String) : Value :=
  match object with
  | .array elements =>
    if name = "length" then .number (Binary64.ofNat elements.length) else .undefined
  | .string text => if name = "length" then .number (Binary64.ofNat text.length) else .undefined
  | _ => .undefined

/-- The element of a list, or the character of a text, at a position. -/
def elementAt? (object : Value) (position : Nat) : Option Value :=
  match object with
  | .array elements => elements[position]?
  | .string text => text.toList[position]?.map fun c => .string (String.singleton c)
  | _ => none

/-- What stands in brackets after an object: a position in it, or the name of a property. -/
def element (object index : Value) : Value :=
  match index.position?.bind (elementAt? object) with
  | some value => value
  | none =>
    match index with
    | .string name => property object name
    | _ => .undefined

end FlowPath.Value
