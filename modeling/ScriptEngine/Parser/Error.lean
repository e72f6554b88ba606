/-
Why a part of a script does not parse.

A fault says what the parser needed and what it met.  The code and the wording
of a message are functions of the fault.
-/
import ScriptEngine.Token

namespace ScriptEngine

/-- The causes of a syntax error. -/
inductive SyntaxFault where
  /-- A certain token had to follow. -/
  | expectedToken (expected : String) (found : TokenKind)
  /-- A statement cannot begin with this token. -/
  | unexpectedToken (found : TokenKind)
  /-- The text of a number names no number. -/
  | malformedNumber (text : String)
  /-- The script ended where an expression had to follow. -/
  | endBeforeExpression
  /-- An expression cannot begin with this token. -/
  | expectedExpression (found : TokenKind)
  /-- The name of a member had to follow. -/
  | expectedIdentifier (found : TokenKind)
  /-- The left side of an assignment is neither a variable nor a member. -/
  | invalidTarget
  /-- The script ended inside the block that this keyword opened. -/
  | unterminatedBlock (keyword : String) (opened : Location)
  /-- The token itself is invalid; the lexer's fault is the message for it. -/
  | invalidToken
  /-- The parser used up its steps.  The parser grants itself enough of them, so this is the
  answer of its inner functions alone, when they are called with too few. -/
  | outOfSteps
  deriving DecidableEq, Repr

namespace SyntaxFault

/-- The classes that the faults fall into. -/
def kindName : SyntaxFault → String
  | expectedToken .. => "ExpectedToken"
  | unexpectedToken _ | malformedNumber _ => "UnexpectedToken"
  | endBeforeExpression | outOfSteps => "UnexpectedEof"
  | expectedExpression _ => "ExpectedExpression"
  | expectedIdentifier _ => "ExpectedIdentifier"
  | invalidTarget => "InvalidAssignmentTarget"
  | unterminatedBlock .. => "UnterminatedBlock"
  | invalidToken => "Lexical"

def code : SyntaxFault → String
  | expectedToken .. => "P001"
  | unexpectedToken _ | malformedNumber _ => "P002"
  | endBeforeExpression | outOfSteps => "P003"
  | expectedExpression _ => "P004"
  | expectedIdentifier _ => "P005"
  | invalidTarget => "P006"
  | unterminatedBlock .. => "P007"
  | invalidToken => "P000"

/-- The words for the class of a fault. -/
def summary : SyntaxFault → String
  | expectedToken .. => "expected token"
  | unexpectedToken _ | malformedNumber _ => "unexpected token"
  | endBeforeExpression | outOfSteps => "unexpected end of input"
  | expectedExpression _ => "expected expression"
  | expectedIdentifier _ => "expected identifier"
  | invalidTarget => "invalid assignment target"
  | unterminatedBlock .. => "unterminated block"
  | invalidToken => "invalid token"

def message : SyntaxFault → String
  | expectedToken expected found => "expected " ++ expected ++ ", found " ++ found.description
  | unexpectedToken found => "unexpected " ++ found.description
  | malformedNumber text => "invalid number '" ++ text ++ "'"
  | endBeforeExpression | outOfSteps => "unexpected end of input, expected an expression"
  | expectedExpression found => "expected expression, found " ++ found.description
  | expectedIdentifier found => "expected identifier, found " ++ found.description
  | invalidTarget => "only variables and members can be assigned"
  | unterminatedBlock keyword opened =>
    "expected 'end' to close '" ++ keyword ++ "' opened at " ++ opened.text
  | invalidToken => ""

end SyntaxFault

structure SyntaxError where
  fault : SyntaxFault
  location : Location
  deriving DecidableEq, Repr

def SyntaxError.text (e : SyntaxError) : String :=
  e.fault.summary ++ " at " ++ e.location.text ++ ": " ++ e.fault.message

end ScriptEngine
