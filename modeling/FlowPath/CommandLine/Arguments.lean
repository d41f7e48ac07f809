import FlowPath.Number.Decimal

/-!
# Arguments

The arguments of the command: one path, options with a value and flags. A value follows its option
as the next argument, or in the same argument after an equals sign, or directly after the letter of
a short option. After `--` everything is a path. Options and flags come at most once.

Arguments are taken one after the other. A value is looked at only when the next argument is
recognised, so an argument that is not recognised is reported before a bad value in front of it.
-/

namespace FlowPath

/-- What to print. -/
inductive Emit where
  | dot
  | nodes
  | edges
  | tree
  | env
deriving DecidableEq, Repr

structure Arguments where
  /-- The file with the program, or `-` for the standard input. -/
  tree : String
  input : String := ""
  batch : Option String := none
  emit : Emit := .dot
  function : Option String := none
  config : Option String := none
  unrollBudget : Option Nat := none
  strictInputs : Bool := false
  noStepNumbers : Bool := false
  out : Option String := none
  pretty : Bool := false
  noColor : Bool := false
deriving DecidableEq, Repr

/-- Why the arguments cannot be taken. -/
inductive UsageError where
  | missingTree
  | unknown
  /-- A value is missing, empty or none of those that are possible. -/
  | invalidValue
  /-- A value is no number in the range. -/
  | badNumber
  /-- Two options exclude each other, or one comes twice. -/
  | conflict
  /-- A flag is given a value. -/
  | unneededValue
  /-- The user asks for help. -/
  | help
  /-- The user asks for the version. -/
  | version
deriving DecidableEq, Repr

namespace Emit

def label : Emit → String
  | .dot => "dot"
  | .nodes => "nodes"
  | .edges => "edges"
  | .tree => "tree"
  | .env => "env"

def ofLabel? (label : String) : Option Emit :=
  [Emit.dot, .nodes, .edges, .tree, .env].find? fun emit => emit.label == label

/-- What is printed is JSON. -/
def isJson : Emit → Bool
  | .tree | .env => true
  | _ => false

end Emit

namespace Arguments

/-- The program comes from the standard input. -/
def readsStdin (args : Arguments) : Bool := args.tree == "-"

/-- What takes a value. -/
inductive Slot where
  | tree
  | input
  | batch
  | emit
  | function
  | config
  | unrollBudget
  | out
deriving DecidableEq, Repr

/-- What takes none. -/
inductive Flag where
  | strictInputs
  | noStepNumbers
  | pretty
  | noColor
  | help
  | version
deriving DecidableEq, Repr

/-- The arguments taken so far. The last slot may still wait for its value, and its value to be
looked at. -/
structure Draft where
  tree : Option String := none
  input : Option String := none
  batch : Option String := none
  emit : Option Emit := none
  function : Option String := none
  config : Option String := none
  unrollBudget : Option Nat := none
  strictInputs : Bool := false
  noStepNumbers : Bool := false
  out : Option String := none
  pretty : Bool := false
  noColor : Bool := false
  /-- A path came. -/
  hasPath : Bool := false
  pending : Option (Slot × Option String) := none
deriving DecidableEq, Repr

def Slot.ofName? : String → Option Slot
  | "input" => some .input
  | "batch" => some .batch
  | "emit" => some .emit
  | "function" => some .function
  | "config" => some .config
  | "unroll-budget" => some .unrollBudget
  | "out" => some .out
  | _ => none

def Slot.ofLetter? : Char → Option Slot
  | 'i' => some .input
  | 'e' => some .emit
  | 'f' => some .function
  | 'c' => some .config
  | 'o' => some .out
  | _ => none

def Flag.ofName? : String → Option Flag
  | "strict-inputs" => some .strictInputs
  | "no-step-numbers" => some .noStepNumbers
  | "pretty" => some .pretty
  | "no-color" => some .noColor
  | "help" => some .help
  | "version" => some .version
  | _ => none

def Flag.ofLetter? : Char → Option Flag
  | 'h' => some .help
  | 'V' => some .version
  | _ => none

/-! ## Values -/

/-- Sets a field that must not be set yet. -/
def once {α : Type} (old : Option α) (new : Except UsageError α) :
    Except UsageError (Option α) :=
  match old with
  | some _ => .error .conflict
  | none => new.map some

/-- A path must not be empty. -/
def pathValue (value : String) : Except UsageError String :=
  if value.isEmpty then .error .invalidValue else .ok value

def emitValue (value : String) : Except UsageError Emit :=
  match Emit.ofLabel? value with
  | some emit => .ok emit
  | none => .error .invalidValue

/-- The number that some digits write, at least one of them. -/
def natOfDigits? (digits : List Char) : Option Nat :=
  if digits.isEmpty || !digits.all Text.isDigit then none
  else some (Decimal.valueOfDigits digits)

/-- A number of 32 bits. A sign is allowed, so that zero can be written `-0`. -/
def budgetValue (value : String) : Except UsageError Nat :=
  let size? :=
    match value.toList with
    | '+' :: digits => natOfDigits? digits
    | '-' :: digits => (natOfDigits? digits).filter (· == 0)
    | digits => natOfDigits? digits
  match size? with
  | some n => if n < 0x100000000 then .ok n else .error .badNumber
  | none => .error .badNumber

/-- Gives a slot its value. -/
def Draft.fill (draft : Draft) (slot : Slot) (value : String) : Except UsageError Draft :=
  match slot with
  | .tree => do return { draft with tree := ← once draft.tree (pathValue value) }
  | .input => do return { draft with input := ← once draft.input (.ok value) }
  | .batch => do return { draft with batch := ← once draft.batch (pathValue value) }
  | .emit => do return { draft with emit := ← once draft.emit (emitValue value) }
  | .function => do return { draft with function := ← once draft.function (.ok value) }
  | .config => do return { draft with config := ← once draft.config (pathValue value) }
  | .unrollBudget => do
    return { draft with unrollBudget := ← once draft.unrollBudget (budgetValue value) }
  | .out => do return { draft with out := ← once draft.out (pathValue value) }

/-- Looks at the value that is pending. -/
def Draft.settle (draft : Draft) : Except UsageError Draft :=
  match draft.pending with
  | none => .ok draft
  | some (_, none) => .error .invalidValue
  | some (slot, some value) => { draft with pending := none }.fill slot value

/-- Sets a flag that must not be set yet. -/
def onceFlag (old : Bool) : Except UsageError Bool := if old then .error .conflict else .ok true

def Draft.raise (draft : Draft) (flag : Flag) : Except UsageError Draft := do
  let draft ← draft.settle
  match flag with
  | .strictInputs => return { draft with strictInputs := ← onceFlag draft.strictInputs }
  | .noStepNumbers => return { draft with noStepNumbers := ← onceFlag draft.noStepNumbers }
  | .pretty => return { draft with pretty := ← onceFlag draft.pretty }
  | .noColor => return { draft with noColor := ← onceFlag draft.noColor }
  | .help => throw .help
  | .version => throw .version

/-! ## Taking arguments -/

/-- An option, with its value if that is in the same argument. -/
def Draft.option (draft : Draft) (slot : Slot) (attached : Option String) :
    Except UsageError Draft := do
  let draft ← draft.settle
  match attached with
  | some value => draft.fill slot value
  | none => return { draft with pending := some (slot, none) }

/-- An argument that starts with two dashes: its name, and what follows an equals sign. -/
def Draft.long (draft : Draft) (text : List Char) : Except UsageError Draft :=
  let (name, rest) := text.span (· ≠ '=')
  let attached := rest.head?.map fun _ => String.ofList rest.tail
  match Slot.ofName? (String.ofList name), Flag.ofName? (String.ofList name), attached with
  | some slot, _, attached => draft.option slot attached
  | none, some _, some _ => .error .unneededValue
  | none, some flag, none => draft.raise flag
  | none, none, _ => .error .unknown

/-- An argument that starts with one dash: a letter, and maybe the value of its option. -/
def Draft.short (draft : Draft) (letter : Char) (rest : List Char) : Except UsageError Draft :=
  match Slot.ofLetter? letter, Flag.ofLetter? letter with
  | some slot, _ =>
    match rest with
    | [] => draft.option slot none
    | '=' :: value => draft.option slot (some (String.ofList value))
    | value => draft.option slot (some (String.ofList value))
  | none, some flag => draft.raise flag
  | none, none => .error .unknown

/-- A path. Only one can be given. -/
def Draft.path (draft : Draft) (text : String) : Except UsageError Draft :=
  if draft.hasPath then .error .unknown
  else do
    let draft ← draft.settle
    return { draft with hasPath := true, pending := some (.tree, some text) }

/-- One argument before `--`. -/
def Draft.take (draft : Draft) (argument : String) : Except UsageError Draft :=
  match argument.toList with
  | '-' :: '-' :: text => draft.long text
  | '-' :: letter :: rest => draft.short letter rest
  | _ =>
    match draft.pending with
    | some (slot, none) => .ok { draft with pending := some (slot, some argument) }
    | _ => draft.path argument

/-- The arguments up to `--`, and then nothing but paths. -/
def Draft.takeAll : List String → Draft → Except UsageError Draft
  | [], draft => .ok draft
  | "--" :: rest, draft => rest.foldlM Draft.path draft
  | argument :: rest, draft => do takeAll rest (← draft.take argument)

/-- The arguments once all of them are taken. -/
def Draft.finish (draft : Draft) : Except UsageError Arguments := do
  let draft ← draft.settle
  if draft.batch.isSome && draft.input.isSome then throw .conflict
  match draft.tree with
  | none => throw .missingTree
  | some tree =>
    return {
      tree
      input := draft.input.getD ""
      batch := draft.batch
      emit := draft.emit.getD .dot
      function := draft.function
      config := draft.config
      unrollBudget := draft.unrollBudget
      strictInputs := draft.strictInputs
      noStepNumbers := draft.noStepNumbers
      out := draft.out
      pretty := draft.pretty
      noColor := draft.noColor }

/-- The arguments that a command line gives. -/
def parse (line : List String) : Except UsageError Arguments := do
  (← Draft.takeAll line {}).finish

end Arguments

end FlowPath
