import FlowPath.Expr.Basic
import FlowPath.Value.Operators

/-!
# Evaluation

Every expression has a value under any bindings of its names: a name that is not bound is
`undefined`, and so is whatever the operators do not know. An assignment has the value of its right
side.
-/

namespace FlowPath

/-- What names stand for. -/
abbrev Bindings := String → Option Value

namespace Expr

variable {α : Type}

mutual

def eval (bindings : Bindings) : Expr α → Value
  | .missing _ => .undefined
  | .number _ value => .number value
  | .string _ value => .string value
  | .boolean _ value => .boolean value
  | .identifier _ name => (bindings name).getD .undefined
  | .array _ elements => .array (evalAll bindings elements)
  | .element _ object index => Value.element (object.eval bindings) (index.eval bindings)
  | .property _ object name => Value.property (object.eval bindings) name
  | .unary _ operator operand => Value.applyUnary operator (operand.eval bindings)
  | .binary _ operator left right =>
    let value := left.eval bindings
    if operator = .andAnd ∧ value.isTrue = false then value
    else if operator = .orOr ∧ value.isTrue = true then value
    else Value.applyBinary operator value (right.eval bindings)
  | .conditional _ condition whenTrue whenFalse =>
    if (condition.eval bindings).isTrue then whenTrue.eval bindings else whenFalse.eval bindings
  | .assign _ _ _ value => value.eval bindings

def evalAll (bindings : Bindings) : List (Expr α) → List Value
  | [] => []
  | e :: rest => e.eval bindings :: evalAll bindings rest

end

end Expr

end FlowPath
