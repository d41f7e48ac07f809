import FlowPath.Analysis
import FlowPath.CommandLine.Arguments

/-!
# Settings

Settings come from the arguments, from a configuration file and from defaults, in this order. The
file is a JSON record in which every field may be missing. Its truth values may also be spelled as
words.
-/

namespace FlowPath

open FlowPath.Json (Reader RecordField)

/-- The colours of nodes in a configuration. -/
structure Palette where
  inPath : Option String := none
  offPath : Option String := none
deriving DecidableEq, Repr

/-- What a configuration file says. -/
structure Configuration where
  unrollBudget : Option Nat := none
  strictInputs : Option Bool := none
  maxDepth : Option Nat := none
  maxLoopIterations : Option Nat := none
  stepNumbers : Option Bool := none
  palette : Option Palette := none
deriving DecidableEq, Repr

/-- What a run of the command goes by. -/
structure Settings where
  walk : WalkOptions
  draw : Graph.DrawOptions
deriving DecidableEq, Repr

namespace Configuration

/-- The truth value that a word spells. Case and blanks around the word do not count; only the ASCII
letters have the letters of these words as their lower case. -/
def truthOfWord? (word : String) : Option Bool :=
  match String.ofList ((Text.trim word.toList).map Char.toLower) with
  | "true" | "1" | "yes" | "on" => some true
  | "false" | "0" | "no" | "off" => some false
  | _ => none

/-- A truth value or a word for one. The whole value is read before it is judged. -/
def readTruth : Reader Bool := fun text => do
  let (value, text) ← Json.readValue (Json.mostLevels - 1) text
  match value with
  | .bool truth => return (truth, text)
  | .string word =>
    match truthOfWord? word with
    | some truth => return (truth, text)
    | none => throw (.notBoolean word)
  | _ => throw .mismatch

/-- A field whose value may be `null`. -/
def field {σ α : Type} (name : String) (item : Reader α) (set : σ → Option α → σ) :
    RecordField σ where
  name
  read record text := do
    let (value, text) ← Json.readOptional item text
    return (set record value, text)

/-- Numbers of 32 bits lie below. -/
def wordLimit : Nat := 0x100000000

/-- Numbers of 64 bits lie below. -/
def longLimit : Nat := 0x10000000000000000

def paletteFields : List (RecordField Palette) :=
  [field "inPath" Json.readText fun palette value => { palette with inPath := value },
   field "offPath" Json.readText fun palette value => { palette with offPath := value }]

def fields : List (RecordField Configuration) :=
  [field "unrollBudget" (Json.readNatBelow wordLimit) fun c value =>
     { c with unrollBudget := value },
   field "strictInputs" readTruth fun c value => { c with strictInputs := value },
   field "maxDepth" (Json.readNatBelow wordLimit) fun c value => { c with maxDepth := value },
   field "maxLoopIterations" (Json.readNatBelow longLimit) fun c value =>
     { c with maxLoopIterations := value },
   field "stepNumbers" readTruth fun c value => { c with stepNumbers := value },
   field "palette" (Json.readRecord paletteFields {}) fun c value => { c with palette := value }]

def parse (text : String) : Except JsonError Configuration :=
  Json.readAll (Json.readRecord fields {}) text

end Configuration

/-- The settings of a run: the arguments win over the configuration, and that wins over the
defaults. -/
def Settings.resolve (configuration : Configuration) (args : Arguments) : Settings :=
  let palette := configuration.palette.getD {}
  let walk : WalkOptions := {}
  let draw : Graph.DrawOptions := {}
  { walk :=
      { unrollBudget := (args.unrollBudget <|> configuration.unrollBudget).getD walk.unrollBudget
        strictInputs := args.strictInputs || configuration.strictInputs.getD walk.strictInputs
        maxDepth := configuration.maxDepth.getD walk.maxDepth
        maxRounds := configuration.maxLoopIterations.getD walk.maxRounds }
    draw :=
      { stepNumbers := !args.noStepNumbers && configuration.stepNumbers.getD draw.stepNumbers
        onPathFill := palette.inPath.getD draw.onPathFill
        offPathFill := palette.offPath.getD draw.offPathFill } }

end FlowPath
