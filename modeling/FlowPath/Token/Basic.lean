/-!
# Tokens

The tokens of conditions and assignments. A token knows where it stands in the text, in bytes of
its UTF-8 form, and what its characters are; a string literal also knows the text it stands for.
-/

namespace FlowPath

/-- The kinds of tokens. -/
inductive Token.Kind where
  | unknown | endOfText
  | number | string | identifier
  | trueWord | falseWord | letWord | constWord | varWord
  | openParen | closeParen | openBracket | closeBracket
  | comma | dot | question | colon | semicolon
  | plus | minus | star | starStar | slash | percent | bang
  | less | greater | lessEqual | greaterEqual
  | equalEqual | bangEqual | equalEqualEqual | bangEqualEqual
  | andAnd | orOr
  | assign | plusAssign | minusAssign | starAssign | slashAssign | percentAssign
deriving DecidableEq, Repr

/-- Why some characters are no token. -/
inductive Token.Fault where
  | unexpectedCharacter
  | unterminatedString
deriving DecidableEq, Repr

structure Token where
  kind : Token.Kind
  /-- The offset of the first byte. -/
  start : Nat
  /-- The offset after the last byte. -/
  stop : Nat
  /-- The characters as they are written. -/
  text : String
  /-- The text that a string literal stands for. -/
  value : String
  fault : Option Token.Fault
deriving DecidableEq, Repr

namespace Token

def Fault.message : Fault → String
  | .unexpectedCharacter => "unexpected character"
  | .unterminatedString => "unterminated string literal"

/-- The word or the symbol, or for a kind with many spellings what it is called. -/
def Kind.spelling : Kind → String
  | .unknown => "unknown token"
  | .endOfText => "end of expression"
  | .number => "numeric literal"
  | .string => "string literal"
  | .identifier => "identifier"
  | .trueWord => "true"
  | .falseWord => "false"
  | .letWord => "let"
  | .constWord => "const"
  | .varWord => "var"
  | .openParen => "("
  | .closeParen => ")"
  | .openBracket => "["
  | .closeBracket => "]"
  | .comma => ","
  | .dot => "."
  | .question => "?"
  | .colon => ":"
  | .semicolon => ";"
  | .plus => "+"
  | .minus => "-"
  | .star => "*"
  | .starStar => "**"
  | .slash => "/"
  | .percent => "%"
  | .bang => "!"
  | .less => "<"
  | .greater => ">"
  | .lessEqual => "<="
  | .greaterEqual => ">="
  | .equalEqual => "=="
  | .bangEqual => "!="
  | .equalEqualEqual => "==="
  | .bangEqualEqual => "!=="
  | .andAnd => "&&"
  | .orOr => "||"
  | .assign => "="
  | .plusAssign => "+="
  | .minusAssign => "-="
  | .starAssign => "*="
  | .slashAssign => "/="
  | .percentAssign => "%="

/-- The words that are no names. -/
def words : List Kind := [.trueWord, .falseWord, .letWord, .constWord, .varWord]

/-- The kinds that are spelled with symbols, longer spellings first: of two symbols that fit, the
longer one is taken. -/
def symbols : List Kind :=
  [.equalEqualEqual, .bangEqualEqual,
   .equalEqual, .bangEqual, .lessEqual, .greaterEqual, .andAnd, .orOr, .starStar,
   .plusAssign, .minusAssign, .starAssign, .slashAssign, .percentAssign,
   .openParen, .closeParen, .openBracket, .closeBracket,
   .comma, .dot, .question, .colon, .semicolon,
   .plus, .minus, .star, .slash, .percent, .bang, .less, .greater, .assign]

/-- A word that a declaration starts with. -/
def Kind.isDeclaration : Kind → Bool
  | .letWord | .constWord | .varWord => true
  | _ => false

/-- The plain assignment or one that computes with the old value. -/
def Kind.isAssignment : Kind → Bool
  | .assign | .plusAssign | .minusAssign | .starAssign | .slashAssign | .percentAssign => true
  | _ => false

/-- The operator that an assignment applies to the old value, if it does. -/
def Kind.compound? : Kind → Option Kind
  | .plusAssign => some .plus
  | .minusAssign => some .minus
  | .starAssign => some .star
  | .slashAssign => some .slash
  | .percentAssign => some .percent
  | _ => none

end Token

end FlowPath
