import FlowPath.Text.Word
import FlowPath.Token.Basic

/-!
# Scanning

`lexeme` takes one token off the front of a text that does not start with a blank, and `scan` gives
all tokens of a text. The last token is always the end of the text, which is empty. Characters that
make no token become a token of unknown kind with its fault.
-/

namespace FlowPath.Token

open FlowPath.Text (isBlank isDigit isWordChar startsWord)

/-- One token and the text after it: `taken ++ rest` is what it was taken from. -/
structure Lexeme where
  kind : Kind
  taken : List Char
  rest : List Char
  value : List Char := []
  fault : Option Fault := none
deriving DecidableEq, Repr

/-! ## Numbers -/

/-- The fraction of a number: a point and any number of digits. -/
def splitFraction : List Char → List Char × List Char
  | '.' :: rest =>
    let (digits, rest) := rest.span isDigit
    ('.' :: digits, rest)
  | text => ([], text)

/-- The exponent of a number: its mark, an optional sign and digits. A mark without a digit is not
an exponent. -/
def splitExponent : List Char → List Char × List Char
  | mark :: text =>
    if mark = 'e' ∨ mark = 'E' then
      let (sign, unsigned) :=
        match text with
        | '+' :: rest => (['+'], rest)
        | '-' :: rest => (['-'], rest)
        | rest => ([], rest)
      match unsigned.span isDigit with
      | ([], _) => ([], mark :: text)
      | (digits, rest) => (mark :: sign ++ digits, rest)
    else ([], mark :: text)
  | [] => ([], [])

def lexNumber (text : List Char) : Lexeme :=
  let (whole, afterWhole) := text.span isDigit
  let (fraction, afterFraction) := splitFraction afterWhole
  let (exponent, rest) := splitExponent afterFraction
  { kind := .number, taken := whole ++ fraction ++ exponent, rest }

/-! ## Strings -/

/-- The character that stands after a backslash in a string literal. -/
def unescape : Char → Char
  | 'n' => '\n'
  | 't' => '\t'
  | 'r' => '\r'
  | '0' => '\x00'
  | c => c

/-- Puts characters in front of a lexeme, and their meaning in front of its value. -/
def Lexeme.after (taken value : List Char) (lexeme : Lexeme) : Lexeme :=
  { lexeme with taken := taken ++ lexeme.taken, value := value ++ lexeme.value }

/-- A string literal after its opening quote. -/
def lexString (quote : Char) : List Char → Lexeme
  | [] => { kind := .unknown, taken := [], rest := [], fault := some .unterminatedString }
  | c :: text =>
    if c = quote then { kind := .string, taken := [c], rest := text }
    else if c = '\\' then
      match text with
      | [] => { kind := .unknown, taken := [c], rest := [], fault := some .unterminatedString }
      | escaped :: text => (lexString quote text).after [c, escaped] [unescape escaped]
    else (lexString quote text).after [c] [c]

/-! ## Words and symbols -/

/-- The kind of a word: one of the reserved words, or a name. -/
def wordKind (word : List Char) : Kind :=
  (words.find? fun kind => kind.spelling.toList == word).getD .identifier

def lexWord (text : List Char) : Lexeme :=
  let (word, rest) := text.span isWordChar
  { kind := wordKind word, taken := word, rest }

/-- The longest symbol at the front of the text, or one character that is none. -/
def lexSymbol (text : List Char) : Lexeme :=
  match symbols.find? fun kind => kind.spelling.toList.isPrefixOf text with
  | some kind =>
    let width := kind.spelling.length
    { kind, taken := text.take width, rest := text.drop width }
  | none =>
    { kind := .unknown, taken := text.take 1, rest := text.drop 1,
      fault := some .unexpectedCharacter }

/-- A number starts with a digit, or with a point that a digit follows. -/
def startsNumber : List Char → Bool
  | '.' :: next :: _ => isDigit next
  | c :: _ => isDigit c
  | [] => false

/-- The token at the front of a text that starts with no blank. -/
def lexeme (text : List Char) : Lexeme :=
  match text with
  | [] => { kind := .endOfText, taken := [], rest := [] }
  | c :: rest =>
    if startsNumber text then lexNumber text
    else if c = '"' ∨ c = '\'' then (lexString c rest).after [c] []
    else if startsWord c then lexWord text
    else lexSymbol text

/-! ## Texts -/

/-- The number of bytes of the UTF-8 form. -/
def byteSize (text : List Char) : Nat := text.foldr (fun c size => c.utf8Size + size) 0

def Lexeme.token (lexeme : Lexeme) (start : Nat) : Token :=
  { kind := lexeme.kind
    start
    stop := start + byteSize lexeme.taken
    text := String.ofList lexeme.taken
    value := String.ofList lexeme.value
    fault := lexeme.fault }

/-- The tokens from the given offset on, at most `fuel` of them before the end of the text. -/
def scanFrom : Nat → Nat → List Char → List Token
  | 0, offset, _ => [({ kind := .endOfText, taken := [], rest := [] } : Lexeme).token offset]
  | fuel + 1, offset, text =>
    let (blanks, text) := text.span isBlank
    let token := (lexeme text).token (offset + byteSize blanks)
    match text with
    | [] => [token]
    | _ :: _ => token :: scanFrom fuel token.stop (lexeme text).rest

/-- The tokens of a text, the end of the text included. -/
def scan (text : String) : List Token :=
  let chars := text.toList
  scanFrom (chars.length + 1) 0 chars

end FlowPath.Token
