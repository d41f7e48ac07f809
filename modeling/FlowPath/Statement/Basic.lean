import FlowPath.Json.Basic

/-!
# Statements

A program is a tree of statements. The children of a conditional and of a loop play a role that
tells when they run. Every statement has a mark that says whether it lies on the path of a run.
-/

namespace FlowPath

/-- What a statement does. -/
inductive Statement.Kind where
  | function
  /-- A declaration or an assignment, plain or compound. -/
  | assignment
  | conditional
  | loop
  | returning
  | other
deriving DecidableEq, Repr

/-- When a child of a conditional or of a loop runs. -/
inductive Statement.Role where
  | consequent
  | alternate
  | body
deriving DecidableEq, Repr

structure Statement where
  kind : Statement.Kind
  /-- The condition of a branch, the head of a function, or the statement itself. -/
  text : String
  role : Option Statement.Role
  /-- The mark: the statement lies on the path. -/
  onPath : Bool
  children : List Statement

namespace Statement

/-- Conditionals and loops split the flow of control. -/
def Kind.isBranching : Kind → Bool
  | .conditional | .loop => true
  | _ => false

/-- Statements that can share a block with their neighbours. -/
def Kind.isMergeable : Kind → Bool
  | .conditional | .loop | .returning => false
  | _ => true

def Kind.label : Kind → String
  | .function => "FunctionDeclaration"
  | .assignment => "VariableDeclaration"
  | .conditional => "Conditional"
  | .loop => "Loop"
  | .returning => "Return"
  | .other => "Other"

def Role.label : Role → String
  | .consequent => "consequent"
  | .alternate => "alternate"
  | .body => "body"

def Role.ofLabel? (label : String) : Option Role :=
  [Role.consequent, .alternate, .body].find? fun role => role.label == label

/-! ## Building -/

/-- A statement without role, mark and children. -/
def leaf (kind : Kind) (text : String) : Statement :=
  { kind, text, role := none, onPath := false, children := [] }

def withRole (s : Statement) (role : Role) : Statement := { s with role := some role }

def withChildren (s : Statement) (children : List Statement) : Statement := { s with children }

/-- The root of a script. -/
def program (body : List Statement) : Statement := (leaf .other "").withChildren body

def function (declaration : String) (body : List Statement) : Statement :=
  (leaf .function declaration).withChildren body

def assignment (text : String) : Statement := leaf .assignment text

/-- A statement that does nothing but lie on the path. -/
def plain (text : String) : Statement := leaf .other text

def returning (text : String) : Statement := leaf .returning text

def conditional (condition : String) (consequent alternate : List Statement) : Statement :=
  (leaf .conditional condition).withChildren
    (consequent.map (·.withRole .consequent) ++ alternate.map (·.withRole .alternate))

def whileLoop (condition : String) (body : List Statement) : Statement :=
  (leaf .loop condition).withChildren (body.map (·.withRole .body))

/-! ## Looking -/

def childrenWithRole (s : Statement) (role : Role) : List Statement :=
  s.children.filter fun child => child.role = some role

/-- The functions directly below. -/
def functions (s : Statement) : List Statement :=
  s.children.filter fun child => child.kind = .function

mutual

/-- The statement and all below it, in the order of the text, each with its depth. -/
def outline (depth : Nat) : Statement → List (Nat × Statement)
  | ⟨kind, text, role, onPath, children⟩ =>
    (depth, ⟨kind, text, role, onPath, children⟩) :: outlineAll (depth + 1) children

def outlineAll (depth : Nat) : List Statement → List (Nat × Statement)
  | [] => []
  | s :: rest => outline depth s ++ outlineAll depth rest

end

mutual

/-- The number of statements in the tree. -/
def size : Statement → Nat
  | ⟨_, _, _, _, children⟩ => 1 + sizeAll children

def sizeAll : List Statement → Nat
  | [] => 0
  | s :: rest => size s + sizeAll rest

end

mutual

def toJson : Statement → Json
  | ⟨kind, text, role, onPath, children⟩ =>
    let roleMember :=
      match role with
      | some role => [("role", Json.string role.label)]
      | none => []
    let childrenMember :=
      match children with
      | [] => []
      | first :: rest => [("children", Json.array (toJson first :: toJsonAll rest))]
    .object
      ([("kind", .string kind.label), ("text", .string text)] ++ roleMember ++
        [("inPath", .bool onPath)] ++ childrenMember)

def toJsonAll : List Statement → List Json
  | [] => []
  | s :: rest => toJson s :: toJsonAll rest

end

end Statement

end FlowPath
