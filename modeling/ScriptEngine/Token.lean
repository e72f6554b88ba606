/-
Tokens of a script.

A token is its kind, its text and the place of its first character.  The text of
a string literal is what the literal denotes; every other token has the text
that stands in the script.  A text that forms no token becomes a token of kind
`invalid`, which the lexer reports when it scans it.
-/
import ScriptEngine.Location
import ScriptEngine.Text.Quoted

namespace ScriptEngine

/-- The kinds of tokens: literals and names, keywords, operators, delimiters, and the two marks
for the end of the script and for a text that forms no token. -/
inductive TokenKind where
  | number | string | identifier
  | true_ | false_ | if_ | else_ | while_ | end_ | and_ | or_ | not_ | print | println
  | plus | minus | star | slash
  | equal | equalEqual | lessGreater | less | lessEqual | greater | greaterEqual
  | leftParen | rightParen | comma | dot | semicolon
  | eof | invalid
  deriving DecidableEq, Repr

namespace TokenKind

def all : List TokenKind :=
  [number, string, identifier, true_, false_, if_, else_, while_, end_, and_, or_, not_, print,
   println, plus, minus, star, slash, equal, equalEqual, lessGreater, less, lessEqual, greater,
   greaterEqual, leftParen, rightParen, comma, dot, semicolon, eof, invalid]

/-- The keywords with their kinds. -/
def keywords : List (String × TokenKind) :=
  [("true", true_), ("false", false_), ("if", if_), ("else", else_), ("while", while_),
   ("end", end_), ("and", and_), ("or", or_), ("not", not_), ("print", print),
   ("println", println)]

def ofKeyword? (word : String) : Option TokenKind := keywords.lookup word

def isKeyword (k : TokenKind) : Bool := keywords.any fun entry => entry.2 = k

/-- Whether the token begins a statement wherever it stands. -/
def startsStatement : TokenKind → Bool
  | if_ | while_ | print | println => true
  | _ => false

def name : TokenKind → String
  | number => "Number" | string => "String" | identifier => "Identifier"
  | true_ => "True" | false_ => "False" | if_ => "If" | else_ => "Else" | while_ => "While"
  | end_ => "End" | and_ => "And" | or_ => "Or" | not_ => "Not"
  | print => "Print" | println => "Println"
  | plus => "Plus" | minus => "Minus" | star => "Star" | slash => "Slash"
  | equal => "Equal" | equalEqual => "EqualEqual" | lessGreater => "LessGreater"
  | less => "Less" | lessEqual => "LessEqual" | greater => "Greater"
  | greaterEqual => "GreaterEqual"
  | leftParen => "LeftParen" | rightParen => "RightParen" | comma => "Comma" | dot => "Dot"
  | semicolon => "Semicolon" | eof => "Eof" | invalid => "Error"

def ofName? (word : String) : Option TokenKind := all.find? fun k => k.name = word

/-- How a message names the kind: what is always written the same way stands in quotes. -/
def description : TokenKind → String
  | number => "number" | string => "string" | identifier => "identifier"
  | true_ => "'true'" | false_ => "'false'" | if_ => "'if'" | else_ => "'else'"
  | while_ => "'while'" | end_ => "'end'" | and_ => "'and'" | or_ => "'or'" | not_ => "'not'"
  | print => "'print'" | println => "'println'"
  | plus => "'+'" | minus => "'-'" | star => "'*'" | slash => "'/'"
  | equal => "'='" | equalEqual => "'=='" | lessGreater => "'<>'"
  | less => "'<'" | lessEqual => "'<='" | greater => "'>'" | greaterEqual => "'>='"
  | leftParen => "'('" | rightParen => "')'" | comma => "','" | dot => "'.'"
  | semicolon => "';'" | eof => "end of input" | invalid => "invalid token"

end TokenKind

/-- A token with the place of its first character. -/
structure Token where
  kind : TokenKind
  lexeme : String
  location : Location
  deriving DecidableEq, Repr

namespace Token

def eof (location : Location) : Token := ⟨.eof, "", location⟩

instance : Inhabited Token := ⟨eof .start⟩

/-- The detailed text of a token: its kind, its quoted text and its place. -/
def describe (t : Token) : String :=
  t.kind.name ++ "(" ++ Text.quote t.lexeme ++ " @ " ++ t.location.text ++ ")"

end Token

inductive LexError where
  | unexpectedCharacter (character : Char) (location : Location)
  | unterminatedString (location : Location)
  | invalidEscape (character : Char) (location : Location)
  | invalidNumber (text : String) (location : Location)
  deriving DecidableEq, Repr

namespace LexError

def code : LexError → String
  | unexpectedCharacter .. => "L001"
  | unterminatedString .. => "L002"
  | invalidEscape .. => "L003"
  | invalidNumber .. => "L004"

def message : LexError → String
  | unexpectedCharacter c _ => "unexpected character '" ++ c.toString ++ "'"
  | unterminatedString _ => "unterminated string literal"
  | invalidEscape c _ => "invalid escape sequence '\\" ++ c.toString ++ "'"
  | invalidNumber text _ => "invalid number '" ++ text ++ "'"

def location : LexError → Location
  | unexpectedCharacter _ l => l
  | unterminatedString l => l
  | invalidEscape _ l => l
  | invalidNumber _ l => l

end LexError

/-- A scanned token together with the fault, if it is an invalid one. -/
structure Scanned where
  token : Token
  fault : Option LexError
  deriving DecidableEq, Repr

/-- The tokens of a script in order, and the place where the script ends. -/
structure TokenStream where
  tokens : List Scanned
  finish : Location
  deriving DecidableEq, Repr

namespace TokenStream

/-- The faults of the invalid tokens, in order. -/
def faults (s : TokenStream) : List LexError := s.tokens.filterMap (·.fault)

end TokenStream
end ScriptEngine
