import FlowPath.Expr.Basic
import FlowPath.Number.Decimal
import FlowPath.Token.Scan

/-!
# Parsing

Conditions and assignments are parsed from their tokens. From the loosest to the tightest binding:
the conditional `c ? a : b`, the binary operators by precedence, the prefix operators `!`, `-` and
`+`, the postfixes `[e]` and `.name`, and the primaries. All binary operators associate to the left,
only `**` associates to the right.

Parsing is by recursive descent, and the descent is bounded: `Grammar` is what the parser can do
inside so many levels, `Grammar.around` adds the level around it, and below the last level stands
`Grammar.none`, which refuses everything. The trees that come out are at most as high.
-/

namespace FlowPath

/-- Why a text is no expression. -/
inductive ParseFault where
  /-- Some characters are no token. -/
  | token (fault : Token.Fault)
  | unexpectedEnd
  /-- A number, string or name where none can stand. -/
  | unexpectedText (kind : Token.Kind) (text : String)
  /-- A word or symbol where it cannot stand. -/
  | unexpected (kind : Token.Kind)
  | expected (wanted found : Token.Kind)
  | expectedProperty
  | badNumeral (text : String)
  | tooDeep
deriving DecidableEq, Repr

structure ParseError where
  text : String
  /-- The offset of the token at fault, in bytes. -/
  offset : Nat
  fault : ParseFault
deriving DecidableEq, Repr

/-- A parsed text: the declaring word in front, if any, and the expression. -/
structure Parsed where
  declaration : Option Token.Kind
  root : Expr Place

def ParseFault.message : ParseFault → String
  | .token fault => fault.message
  | .unexpectedEnd => "unexpected end of expression"
  | .unexpectedText kind text => "unexpected " ++ kind.spelling ++ " `" ++ text ++ "`"
  | .unexpected kind => "unexpected `" ++ kind.spelling ++ "`"
  | .expected wanted found =>
    "expected `" ++ wanted.spelling ++ "`, found `" ++ found.spelling ++ "`"
  | .expectedProperty => "expected property name after `.`"
  | .badNumeral text => "invalid numeric literal `" ++ text ++ "`"
  | .tooDeep => "expression nests deeper than " ++ toString Expr.mostLevels ++ " levels"

def ParseError.message (e : ParseError) : String :=
  "malformed expression `" ++ e.text ++ "` at offset " ++ toString e.offset ++ ": " ++
    e.fault.message

namespace Parsing

/-- The tokens that are left, and the offset after the last one taken. -/
structure Cursor where
  rest : List Token
  taken : Nat := 0
deriving DecidableEq, Repr

/-- A fault and the offset of the token at fault. -/
abbrev Failure := Nat × ParseFault

abbrev Parser := StateT Cursor (Except Failure)

/-- The token that the end of the tokens counts as. -/
def endToken : Token :=
  { kind := .endOfText, start := 0, stop := 0, text := "", value := "", fault := none }

def Cursor.token (cursor : Cursor) : Token := cursor.rest.head?.getD endToken

/-- The next token, which is not taken yet. -/
def peek : Parser Token := fun cursor => .ok (cursor.token, cursor)

/-- Takes the next token. -/
def advance : Parser Unit := fun cursor =>
  .ok ((), { rest := cursor.rest.tail, taken := cursor.token.stop })

/-- The offset after the last token taken. -/
def takenOffset : Parser Nat := fun cursor => .ok (cursor.taken, cursor)

/-- The number of tokens left. -/
def tokensLeft : Parser Nat := fun cursor => .ok (cursor.rest.length, cursor)

/-- Fails at the next token. -/
def fail {α : Type} (fault : ParseFault) : Parser α := fun cursor =>
  .error (cursor.token.start, fault)

/-- Why the token cannot stand where it stands. -/
def unexpectedToken (token : Token) : ParseFault :=
  match token.fault with
  | some fault => .token fault
  | none =>
    match token.kind with
    | .endOfText => .unexpectedEnd
    | .number | .string | .identifier => .unexpectedText token.kind token.text
    | kind => .unexpected kind

/-- Takes a token of the given kind. -/
def expect (kind : Token.Kind) : Parser Unit := do
  let token ← peek
  if token.kind = kind then advance else fail (.expected kind token.kind)

/-! ## Nodes -/

/-- The place of a node over the given children. It must not be higher than expressions may be. -/
def place (start stop : Nat) (children : List (Expr Place)) : Parser Place := do
  let height := 1 + Expr.highest (children.map fun child => child.note.height)
  if Expr.mostLevels < height then fail .tooDeep
  else return { span := { start, stop }, height }

/-- The place of a node that starts at `start` and ends with the last token taken. -/
def placeFrom (start : Nat) (children : List (Expr Place)) : Parser Place := do
  place start (← takenOffset) children

/-- How tightly a binary operator binds. -/
def precedence? : Token.Kind → Option Nat
  | .orOr => some 4
  | .andAnd => some 5
  | .equalEqual | .bangEqual | .equalEqualEqual | .bangEqualEqual => some 9
  | .less | .greater | .lessEqual | .greaterEqual => some 10
  | .plus | .minus => some 12
  | .star | .slash | .percent => some 13
  | .starStar => some 14
  | _ => none

/-- What an operand on the right of an operator may consist of: operators that bind tighter, and
for `**` also `**` itself. -/
def rightPrecedence (operator : Token.Kind) (precedence : Nat) : Nat :=
  if operator = .starStar then precedence else precedence + 1

/-- The prefix operators. -/
def isUnary : Token.Kind → Bool
  | .bang | .minus | .plus => true
  | _ => false

/-! ## Levels -/

/-- What can be parsed inside some level. -/
structure Grammar where
  expression : Parser (Expr Place)
  /-- Operands joined by operators of at least the given precedence. -/
  binary : Nat → Parser (Expr Place)
  unary : Parser (Expr Place)

/-- No level is left. -/
def Grammar.none : Grammar where
  expression := fail .tooDeep
  binary _ := fail .tooDeep
  unary := fail .tooDeep

/-- The elements of a list up to its closing bracket, of which `done` are known, last one first. -/
def elements (expression : Parser (Expr Place)) :
    Nat → List (Expr Place) → Parser (List (Expr Place))
  | 0, done => return done.reverse
  | fuel + 1, done => do
    if (← peek).kind = .closeBracket then return done.reverse
    else
      let element ← expression
      if (← peek).kind = .comma then
        advance
        elements expression fuel (element :: done)
      else return (element :: done).reverse

/-- A literal, a name, an expression in parentheses or a list. -/
def primary (expression : Parser (Expr Place)) : Parser (Expr Place) := do
  let token ← peek
  match token.kind with
  | .number =>
    match Decimal.parse? token.text.toList with
    | none => fail (.badNumeral token.text)
    | some numeral =>
      advance
      return .number (← place token.start token.stop []) numeral.toFloat
  | .string =>
    advance
    return .string (← place token.start token.stop []) token.value
  | .trueWord =>
    advance
    return .boolean (← place token.start token.stop []) true
  | .falseWord =>
    advance
    return .boolean (← place token.start token.stop []) false
  | .identifier =>
    advance
    return .identifier (← place token.start token.stop []) token.text
  | .openParen =>
    advance
    let inner ← expression
    expect .closeParen
    return inner
  | .openBracket =>
    advance
    let items ← elements expression (← tokensLeft) []
    expect .closeBracket
    return .array (← placeFrom token.start items) items
  | _ => fail (unexpectedToken token)

/-- The postfixes after an object. -/
def postfixes (expression : Parser (Expr Place)) : Nat → Expr Place → Parser (Expr Place)
  | 0, object => return object
  | fuel + 1, object => do
    match (← peek).kind with
    | .openBracket =>
      advance
      let index ← expression
      expect .closeBracket
      let place ← placeFrom object.note.span.start [object, index]
      postfixes expression fuel (.element place object index)
    | .dot =>
      advance
      let property ← peek
      if property.kind = .identifier then
        advance
        let place ← placeFrom object.note.span.start [object]
        postfixes expression fuel (.property place object property.text)
      else fail .expectedProperty
    | _ => return object

/-- Prefix operators, or a primary with its postfixes. -/
def unaryAround (below : Grammar) (expression : Parser (Expr Place)) : Parser (Expr Place) := do
  let token ← peek
  if isUnary token.kind then
    advance
    let operand ← below.unary
    return .unary (← placeFrom token.start [operand]) token.kind operand
  else
    let object ← primary expression
    postfixes expression (← tokensLeft) object

/-- The operators after a left operand, each with its right operand. -/
def operators (below : Grammar) (least : Nat) : Nat → Expr Place → Parser (Expr Place)
  | 0, left => return left
  | fuel + 1, left => do
    let operator := (← peek).kind
    match precedence? operator with
    | Option.none => return left
    | some precedence =>
      if precedence < least then return left
      else
        advance
        let right ← below.binary (rightPrecedence operator precedence)
        let place ← placeFrom left.note.span.start [left, right]
        operators below least fuel (.binary place operator left right)

/-- The least precedence, which admits every operator. -/
def leastPrecedence : Nat := 1

/-- A conditional, or just its condition if no question mark follows. -/
def conditional (below : Grammar) : Parser (Expr Place) := do
  let condition ← below.binary leastPrecedence
  if (← peek).kind = .question then
    advance
    let whenTrue ← below.expression
    expect .colon
    let whenFalse ← below.expression
    let place ← placeFrom condition.note.span.start [condition, whenTrue, whenFalse]
    return .conditional place condition whenTrue whenFalse
  else return condition

/-- One more level: an expression, a right operand and the operand of a prefix operator are parsed
one level further in. -/
def Grammar.around (below : Grammar) : Grammar where
  expression := conditional below
  binary least := do
    let left ← unaryAround below (conditional below)
    operators below least (← tokensLeft) left
  unary := unaryAround below (conditional below)

/-- The grammar with so many levels left. -/
def Grammar.levels : Nat → Grammar
  | 0 => Grammar.around Grammar.none
  | n + 1 => Grammar.around (Grammar.levels n)

/-- An expression at the outermost level. -/
def expression : Parser (Expr Place) := (Grammar.levels Expr.mostLevels).expression

/-- The end of the text, with an optional semicolon before it. -/
def finish : Parser Unit := do
  if (← peek).kind = .semicolon then advance
  let token ← peek
  if token.kind = .endOfText then return () else fail (unexpectedToken token)

/-- A declaring word, if one comes next. -/
def declaration : Parser (Option Token.Kind) := do
  let token ← peek
  if token.kind.isDeclaration then
    advance
    return some token.kind
  else return none

/-- An assignment, or an expression alone. -/
def assignment : Parser (Expr Place) := do
  let target ← expression
  let operator := (← peek).kind
  if operator.isAssignment then
    advance
    let value ← expression
    let place ← placeFrom target.note.span.start [target, value]
    return .assign place operator target value
  else return target

/-- Runs a parser on the tokens of a text. -/
def run {α : Type} (parser : Parser α) (text : String) : Except ParseError α :=
  match parser { rest := Token.scan text } with
  | .ok (value, _) => .ok value
  | .error (offset, fault) => .error { text, offset, fault }

end Parsing

/-- Parses a condition or the right side of an assignment. -/
def parseExpression (text : String) : Except ParseError Parsed :=
  let parser : Parsing.Parser Parsed := do
    let root ← Parsing.expression
    Parsing.finish
    return { declaration := none, root }
  Parsing.run parser text

/-- Parses a declaration or an assignment. A declaration without a value is its name alone. -/
def parseAssignment (text : String) : Except ParseError Parsed :=
  let parser : Parsing.Parser Parsed := do
    let declaration ← Parsing.declaration
    let root ← Parsing.assignment
    Parsing.finish
    return { declaration, root }
  Parsing.run parser text

end FlowPath
