import FlowPath.Expr.Parser
import FlowPath.Expr.Table

/-!
# Parsing into a table

The grammar of `FlowPath.Expr.Parser`, with the nodes in a table: a row is added for each node as
soon as the node is complete, and what is parsed is given by its row. The heights of rows are those
of the table. Where a node ends is read off the text: it is the end of what stands before the next
token, without the blanks there.
-/

namespace FlowPath

/-- A parsed text whose nodes are in a table. -/
structure ParsedTable where
  declaration : Option Token.Kind
  table : Table
  root : Nat

namespace TableParsing

open Parsing

/-- Parsers that add rows to a table. -/
abbrev TableParser := StateT Table Parser

/-- The end of the text before the given offset, the blanks before the offset aside. -/
def endBefore (text : String) (offset : Nat) : Nat :=
  Token.byteSize (Text.trimRight (String.Pos.Raw.extract text 0 ⟨offset⟩).toList)

/-- The offset after the last token taken. -/
def previousEnd (text : String) : TableParser Nat := do
  return endBefore text (← peek).start

/-- The offset at which the stretch of a row starts. -/
def startOf (row : Nat) : TableParser Nat := do
  return ((← get).span row).start

/-- Adds a row. It must not be higher than expressions may be. -/
def add (entry : Entry) (start stop : Nat) : TableParser Nat := do
  let (table, row) := (← get).add entry { start, stop }
  set table
  if Expr.mostLevels < table.height row then fail .tooDeep else return row

/-- Adds a row that starts at `start` and ends with the last token taken. -/
def addFrom (text : String) (entry : Entry) (start : Nat) : TableParser Nat := do
  add entry start (← previousEnd text)

/-! ## Levels -/

structure Grammar where
  expression : TableParser Nat
  binary : Nat → TableParser Nat
  unary : TableParser Nat

def Grammar.none : Grammar where
  expression := fail .tooDeep
  binary _ := fail .tooDeep
  unary := fail .tooDeep

section

variable (text : String)

/-- The elements of a list up to its closing bracket, of which `done` are known, last one first. -/
def elements (expression : TableParser Nat) : Nat → List Nat → TableParser (List Nat)
  | 0, done => return done.reverse
  | fuel + 1, done => do
    if (← peek).kind = .closeBracket then return done.reverse
    else
      let element ← expression
      if (← peek).kind = .comma then
        advance
        elements expression fuel (element :: done)
      else return (element :: done).reverse

def primary (expression : TableParser Nat) : TableParser Nat := do
  let token ← peek
  match token.kind with
  | .number =>
    match Decimal.parse? token.text.toList with
    | none => fail (.badNumeral token.text)
    | some numeral =>
      advance
      add (.number numeral.toFloat) token.start token.stop
  | .string =>
    advance
    add (.string token.value) token.start token.stop
  | .trueWord =>
    advance
    add (.boolean true) token.start token.stop
  | .falseWord =>
    advance
    add (.boolean false) token.start token.stop
  | .identifier =>
    advance
    add (.identifier token.text) token.start token.stop
  | .openParen =>
    advance
    let inner ← expression
    expect .closeParen
    return inner
  | .openBracket =>
    advance
    let items ← elements expression (← tokensLeft) []
    expect .closeBracket
    addFrom text (.array items) token.start
  | _ => fail (unexpectedToken token)

def postfixes (expression : TableParser Nat) : Nat → Nat → TableParser Nat
  | 0, object => return object
  | fuel + 1, object => do
    match (← peek).kind with
    | .openBracket =>
      advance
      let index ← expression
      expect .closeBracket
      let row ← addFrom text (.element object index) (← startOf object)
      postfixes expression fuel row
    | .dot =>
      advance
      let property ← peek
      if property.kind = .identifier then
        advance
        let row ← addFrom text (.property object property.text) (← startOf object)
        postfixes expression fuel row
      else fail .expectedProperty
    | _ => return object

def unaryAround (below : Grammar) (expression : TableParser Nat) : TableParser Nat := do
  let token ← peek
  if isUnary token.kind then
    advance
    let operand ← below.unary
    addFrom text (.unary token.kind operand) token.start
  else
    let object ← primary text expression
    postfixes text expression (← tokensLeft) object

def operators (below : Grammar) (least : Nat) : Nat → Nat → TableParser Nat
  | 0, left => return left
  | fuel + 1, left => do
    let operator := (← peek).kind
    match precedence? operator with
    | Option.none => return left
    | some precedence =>
      if precedence < least then return left
      else
        advance
        let right ← below.binary (rightPrecedence operator precedence)
        let row ← addFrom text (.binary operator left right) (← startOf left)
        operators below least fuel row

def conditional (below : Grammar) : TableParser Nat := do
  let condition ← below.binary leastPrecedence
  if (← peek).kind = .question then
    advance
    let whenTrue ← below.expression
    expect .colon
    let whenFalse ← below.expression
    addFrom text (.conditional condition whenTrue whenFalse) (← startOf condition)
  else return condition

def Grammar.around (below : Grammar) : Grammar where
  expression := conditional text below
  binary least := do
    let left ← unaryAround text below (conditional text below)
    operators text below least (← tokensLeft) left
  unary := unaryAround text below (conditional text below)

def Grammar.levels : Nat → Grammar
  | 0 => Grammar.around text Grammar.none
  | n + 1 => Grammar.around text (Grammar.levels n)

def expression : TableParser Nat := (Grammar.levels text Expr.mostLevels).expression

def assignment : TableParser Nat := do
  let target ← expression text
  let operator := (← peek).kind
  if operator.isAssignment then
    advance
    let value ← expression text
    addFrom text (.assign operator target value) (← startOf target)
  else return target

/-- Runs a parser on the tokens of a text, with an empty table. -/
def run (parser : TableParser (Option Token.Kind × Nat)) : Except ParseError ParsedTable :=
  (Parsing.run (parser {}) text).map fun ((declaration, root), table) => { declaration, table, root }

end

end TableParsing

/-- Parses a condition or the right side of an assignment into a table. -/
def parseExpressionTable (text : String) : Except ParseError ParsedTable :=
  TableParsing.run text do
    let root ← TableParsing.expression text
    Parsing.finish
    return (none, root)

/-- Parses a declaration or an assignment into a table. -/
def parseAssignmentTable (text : String) : Except ParseError ParsedTable :=
  TableParsing.run text do
    let declaration ← Parsing.declaration
    let root ← TableParsing.assignment text
    Parsing.finish
    return (declaration, root)

end FlowPath
