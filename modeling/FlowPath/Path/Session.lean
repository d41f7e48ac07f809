import FlowPath.Environment
import FlowPath.Expr.Parser
import FlowPath.Statement.Declaration
import Std.Data.HashMap

/-!
# Sessions

The options of a walk, the errors that end one, and its state: the variables, the inputs that are left, how often
loops went round, and the loops that were cut off. The texts of conditions and assignments are parsed on the way;
`Texts` says how, either afresh every time or with a memory of what was parsed before.
-/

namespace FlowPath

/-- How far a walk goes. -/
structure WalkOptions where
  /-- The rounds of a loop beyond the first before it is cut off. -/
  unrollBudget : Nat := 20
  /-- A parameter without an input is an error; else it is `undefined`. -/
  strictInputs : Bool := false
  /-- The deepest nesting of statements. -/
  maxDepth : Nat := 512
  /-- The rounds of all loops together. -/
  maxRounds : Nat := 100000
deriving DecidableEq, Repr

/-- Why a walk ends early. -/
inductive WalkError where
  | element (error : ElementError)
  /-- The inputs ran out. -/
  | noInput (function parameter : String)
  | malformed (error : ParseError)
  /-- The text of an assignment assigns to nothing that can be assigned to. -/
  | notAssignable (text : String)
  | tooDeep (limit : Nat)
deriving DecidableEq, Repr

def ElementError.message : ElementError → String
  | .noArray name found =>
    "cannot assign to an element of `" ++ name ++ "`: it is " ++ found ++ ", not an array"
  | .badIndex name index => "invalid index `" ++ index ++ "` for `" ++ name ++ "`"

def WalkError.message : WalkError → String
  | .element error => error.message
  | .noInput function parameter =>
    "no input left for parameter `" ++ parameter ++ "` of `" ++ function ++ "`"
  | .malformed error => error.message
  | .notAssignable text => "`" ++ text ++ "` does not assign to a variable or an array element"
  | .tooDeep limit => "statements nest deeper than " ++ toString limit ++ " levels"

/-- Where a statement stands: its position among its siblings, then those of the statements around
it, and last the number of the tree. -/
abbrev Address := List Nat

/-- A loop whose condition still held when it was cut off. -/
structure TruncatedLoop where
  condition : String
  /-- The most rounds that it went before it was cut off. -/
  iterations : Nat
  /-- How often it was cut off. -/
  truncations : Nat
deriving DecidableEq, Repr

/-- How texts become expressions, with a memory of type `μ`. -/
structure Texts (μ : Type) where
  condition : String → μ → Except ParseError Parsed × μ
  assignment : String → μ → Except ParseError Parsed × μ

/-- Parses every text afresh. -/
def Texts.fresh : Texts Unit where
  condition text memory := (parseExpression text, memory)
  assignment text memory := (parseAssignment text, memory)

/-- The texts that were parsed so far. Only successes are kept. -/
structure ParsedTexts where
  conditions : Std.HashMap String Parsed := {}
  assignments : Std.HashMap String Parsed := {}

/-- Parses every text once. -/
def Texts.remembered : Texts ParsedTexts where
  condition text memory :=
    match memory.conditions[text]? with
    | some parsed => (.ok parsed, memory)
    | none =>
      match parseExpression text with
      | .ok parsed =>
        (.ok parsed, { memory with conditions := memory.conditions.insert text parsed })
      | .error e => (.error e, memory)
  assignment text memory :=
    match memory.assignments[text]? with
    | some parsed => (.ok parsed, memory)
    | none =>
      match parseAssignment text with
      | .ok parsed =>
        (.ok parsed, { memory with assignments := memory.assignments.insert text parsed })
      | .error e => (.error e, memory)

/-- The state of a walk. -/
structure Session (μ : Type) where
  environment : Environment := {}
  /-- The inputs that no parameter has taken yet. -/
  inputs : List Value
  /-- The rounds beyond the first that a loop may go from here. -/
  budget : Nat
  /-- The rounds that loops went so far. -/
  rounds : Nat := 0
  /-- The statements that are being walked. -/
  depth : Nat := 0
  /-- The trees that were walked before. -/
  trees : Nat := 0
  /-- The loops that were cut off, in the order in which that first happened. -/
  truncated : List (Address × TruncatedLoop) := []
  /-- The memory of parsed texts. -/
  memory : μ

namespace Session

variable {μ : Type}

/-- The state before a walk. -/
def start (options : WalkOptions) (inputs : List Value) (memory : μ) : Session μ :=
  { inputs, budget := options.unrollBudget, memory }

/-- Opens a scope inside the given one. -/
def enter (session : Session μ) (scope : Nat) : Session μ :=
  { session with environment := session.environment.enter scope }

/-- Closes a scope. -/
def exit (session : Session μ) (scope : Nat) : Session μ :=
  { session with environment := session.environment.exit scope }

/-- Adds the cut of a loop to those that are known. -/
def recordCut (address : Address) (condition : String) (iterations : Nat) :
    List (Address × TruncatedLoop) → List (Address × TruncatedLoop)
  | [] => [(address, { condition, iterations, truncations := 1 })]
  | (other, cut) :: rest =>
    if other = address then
      (other,
        { cut with
          iterations := max cut.iterations iterations
          truncations := cut.truncations + 1 }) :: rest
    else (other, cut) :: recordCut address condition iterations rest

/-- Notes that a loop was cut off after so many rounds. -/
def cut (session : Session μ) (address : Address) (condition : String) (iterations : Nat) :
    Session μ :=
  { session with truncated := recordCut address condition iterations session.truncated }

/-- Whether the condition holds in the scope. -/
def test (texts : Texts μ) (condition : String) (scope : Nat) (session : Session μ) :
    Except WalkError Bool × Session μ :=
  match texts.condition condition session.memory with
  | (.error e, memory) => (.error (.malformed e), { session with memory })
  | (.ok parsed, memory) =>
    (.ok (parsed.root.eval (session.environment.view scope)).isTrue, { session with memory })

/-- What a parsed assignment does to the variables. A declaration without a value declares its
variable as `undefined`. -/
def assignParsed (text : String) (parsed : Parsed) (scope : Nat) (env : Environment) :
    Except WalkError Environment :=
  match parsed.root with
  | .assign _ operator target value =>
    let view := env.view scope
    let right := value.eval view
    let result :=
      match operator.compound? with
      | some binary => Value.applyBinary binary (target.eval view) right
      | none => right
    match target with
    | .identifier _ name => .ok (env.write scope name result)
    | .element _ (.identifier _ name) index =>
      (env.writeElement scope name (index.eval view) result).mapError .element
    | _ => .error (.notAssignable text)
  | .identifier _ name =>
    if parsed.declaration.isSome then .ok (env.declare scope name .undefined)
    else .error (.notAssignable text)
  | _ => .error (.notAssignable text)

/-- Runs an assignment in the scope. -/
def assign (texts : Texts μ) (text : String) (scope : Nat) (session : Session μ) :
    Except WalkError Unit × Session μ :=
  match texts.assignment text session.memory with
  | (.error e, memory) => (.error (.malformed e), { session with memory })
  | (.ok parsed, memory) =>
    match assignParsed text parsed scope session.environment with
    | .error e => (.error e, { session with memory })
    | .ok environment => (.ok (), { session with memory, environment })

/-- What a function without a name is called in messages. -/
def anonymous : String := "<anonymous>"

/-- Gives the next inputs to the parameters of a function. -/
def bindParameters (options : WalkOptions) (function : String) (scope : Nat) :
    List String → Session μ → Except WalkError Unit × Session μ
  | [], session => (.ok (), session)
  | parameter :: rest, session =>
    match session.inputs with
    | value :: inputs =>
      bindParameters options function scope rest
        { session with inputs, environment := session.environment.declare scope parameter value }
    | [] =>
      if options.strictInputs then (.error (.noInput function parameter), session)
      else
        bindParameters options function scope rest
          { session with environment := session.environment.declare scope parameter .undefined }

end Session

end FlowPath
