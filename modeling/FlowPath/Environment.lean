import FlowPath.Expr.Eval

/-!
# Environments

The variables of a run live in scopes, which are numbered in the order in which they were opened;
scope 0 is the root and always open. Every other scope has a parent, and what a scope does not bind
itself is seen through its parent. A scope that is closed takes all scopes opened after it along.

Assigning to a variable binds it in the current scope and then goes outward, as long as the next
scope sees a defined value under the name.
-/

namespace FlowPath

/-- An assignment to an element that cannot be done. -/
inductive ElementError where
  /-- The variable holds no list. -/
  | noArray (name : String) (found : String)
  /-- The index is no position, or one past the longest lists. -/
  | badIndex (name : String) (index : String)
deriving DecidableEq, Repr

/-- The variables that one scope binds, in the order in which they were first bound. -/
abbrev Frame := List (String × Value)

/-- The value that a frame binds to a name. -/
def Frame.get? (frame : Frame) (name : String) : Option Value :=
  (frame.find? fun binding => binding.1 == name).map (·.2)

/-- Binds a name, in its old place if it was bound before. -/
def Frame.set (name : String) (value : Value) : Frame → Frame
  | [] => [(name, value)]
  | (other, old) :: rest =>
    if other = name then (name, value) :: rest else (other, old) :: Frame.set name value rest

structure Scope where
  parent : Option Nat := none
  frame : Frame := []

structure Environment where
  /-- The open scopes by number. -/
  scopes : Array Scope := #[{}]

namespace Environment

/-- Lists never grow beyond this length. -/
def mostElements : Nat := 1048576

/-- The number of open scopes. -/
def size (env : Environment) : Nat := env.scopes.size

/-- The number of the scope that would be opened next. -/
def nextScope (env : Environment) : Nat := env.scopes.size

/-- Opens a scope inside another one. Its number is `nextScope`. -/
def enter (env : Environment) (parent : Nat) : Environment :=
  { scopes := env.scopes.push { parent := some parent } }

/-- Closes a scope and all scopes opened after it. The root stays open. -/
def exit (env : Environment) (scope : Nat) : Environment :=
  { scopes := env.scopes.take (max scope 1) }

/-- The parent of an open scope, if it has one. -/
def parent? (env : Environment) (scope : Nat) : Option Nat :=
  env.scopes[scope]?.bind (·.parent)

/-- What an open scope binds itself. -/
def frame? (env : Environment) (scope : Nat) : Option Frame := env.scopes[scope]?.map (·.frame)

/-- The open scopes from the given one outward, at most `fuel` of them. -/
def chainWithin (env : Environment) : Nat → Nat → List Nat
  | 0, _ => []
  | fuel + 1, scope =>
    match env.scopes[scope]? with
    | none => []
    | some found =>
      match found.parent with
      | none => [scope]
      | some parent => scope :: chainWithin env fuel parent

/-- The open scopes from the given one outward. -/
def chain (env : Environment) (scope : Nat) : List Nat := env.chainWithin env.size scope

/-- What the scope binds itself to the name. -/
def own? (env : Environment) (name : String) (scope : Nat) : Option Value :=
  (env.frame? scope).bind (·.get? name)

/-- The value that the scope sees under the name. -/
def read? (env : Environment) (scope : Nat) (name : String) : Option Value :=
  (env.chain scope).findSome? (env.own? name)

/-- The scope as bindings for evaluation. -/
def view (env : Environment) (scope : Nat) : Bindings := env.read? scope

/-- Binds the name in this scope alone. Nothing happens if the scope is not open. -/
def declare (env : Environment) (scope : Nat) (name : String) (value : Value) : Environment :=
  { scopes := env.scopes.modify scope fun s => { s with frame := s.frame.set name value } }

/-- The scope sees a defined value under the name. -/
def sees (env : Environment) (name : String) (scope : Nat) : Bool :=
  match env.read? scope name with
  | some value => !value.isUndefined
  | none => false

/-- The scope sees a list under the name. -/
def seesArray (env : Environment) (name : String) (scope : Nat) : Bool :=
  match env.read? scope name with
  | some value => value.isArray
  | none => false

/-- Binds the name in the first of the scopes, and in the following ones as long as they see a
defined value. -/
def writeAlong (name : String) (value : Value) : List Nat → Environment → Environment
  | [], env => env
  | scope :: outer, env =>
    let env := env.declare scope name value
    match outer with
    | [] => env
    | next :: _ => if env.sees name next then writeAlong name value outer env else env

/-- Assigns to a variable. -/
def write (env : Environment) (scope : Nat) (name : String) (value : Value) : Environment :=
  writeAlong name value (env.chain scope) env

/-- The list with one element set. It is filled up with `undefined` to reach the position. -/
def setElement (elements : List Value) (position : Nat) (value : Value) : List Value :=
  let filled := elements ++ List.replicate (position + 1 - elements.length) .undefined
  filled.set position value

/-- Sets the element in the list that the first of the scopes sees, and in the following ones as
long as they see a list. -/
def writeElementAlong (name : String) (position : Nat) (value : Value) :
    List Nat → Environment → Except ElementError Environment
  | [], _ => .error (.noArray name Value.undefined.typeName)
  | scope :: outer, env =>
    match env.read? scope name with
    | some (.array elements) =>
      let env := env.declare scope name (.array (setElement elements position value))
      match outer with
      | [] => .ok env
      | next :: _ =>
        if env.seesArray name next then writeElementAlong name position value outer env else .ok env
    | other => .error (.noArray name (other.getD .undefined).typeName)

/-- Assigns to an element of a variable. -/
def writeElement (env : Environment) (scope : Nat) (name : String) (index value : Value) :
    Except ElementError Environment :=
  match index.position? with
  | some position =>
    if position < mostElements then writeElementAlong name position value (env.chain scope) env
    else .error (.badIndex name index.display)
  | none => .error (.badIndex name index.display)

end Environment

end FlowPath
