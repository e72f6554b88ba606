/-
The state of a parser and its moves over the tokens.

A parser sees the tokens ahead of it, and remembers where the last one it
consumed stood.  A token becomes visible when it is the next one; if it is an
invalid token its fault is reported at that moment, so every fault of the lexer
is reported once and in order.

Two counters serve the rules that follow.  Inside parentheses (`nesting`) a line
break means nothing.  The count of open blocks tells recovery how many `end`s
belong to a broken statement, and an error leaves it as it is.
-/
import ScriptEngine.Diagnostic
import ScriptEngine.Parser.Error

namespace ScriptEngine

/-- A parser: the tokens ahead, the place where they end, the place of the last consumed token,
the messages so far, and the two counters. -/
structure Parser where
  ahead : List Scanned
  finish : Location
  previous : Location
  diagnostics : Diagnostics
  openBlocks : Nat
  nesting : Nat

/-- A parsing step: it moves the parser, and fails or gives a result.  The parser keeps its moves
when the step fails. -/
abbrev Parse (α : Type) := EStateM SyntaxError Parser α

namespace Parser

/-- Reports the fault of the next token, if that token is invalid. -/
def reveal (ahead : List Scanned) (ds : Diagnostics) : Diagnostics :=
  match ahead with
  | ⟨_, some fault⟩ :: _ => ds.error fault.code fault.message fault.location
  | _ => ds

def ofTokens (tokens : TokenStream) : Parser :=
  { ahead := tokens.tokens
    finish := tokens.finish
    previous := .start
    diagnostics := reveal tokens.tokens .empty
    openBlocks := 0
    nesting := 0 }

/-- The next token, which is the end mark when no token is ahead. -/
def current (p : Parser) : Token :=
  match p.ahead with
  | t :: _ => t.token
  | [] => .eof p.finish

/-- Whether the next token is of a kind. -/
def check (p : Parser) (kind : TokenKind) : Bool := p.current.kind = kind

def atEnd (p : Parser) : Bool := p.check .eof

/-- Moves past the next token; at the end the parser stays. -/
def advance (p : Parser) : Parser :=
  match p.ahead with
  | [] => p
  | t :: rest =>
    { p with ahead := rest, previous := t.token.location, diagnostics := reveal rest p.diagnostics }

def advanceBy : Nat → Parser → Parser
  | 0, p => p
  | n + 1, p => advanceBy n p.advance

/-- Whether the next token stands on a later line than the one before it, outside parentheses.
Such a token begins a statement where it could also go on with an expression. -/
def atLineStart (p : Parser) : Bool :=
  p.nesting = 0 ∧ p.previous.line < p.current.location.line

def warn (p : Parser) (code text : String) (location : Location) : Parser :=
  { p with diagnostics := p.diagnostics.warning code text location }

/-- Reports a syntax error.  An invalid token has been reported already. -/
def report (p : Parser) (e : SyntaxError) : Parser :=
  if e.fault = .invalidToken then p
  else { p with diagnostics := p.diagnostics.error e.fault.code e.fault.message e.location }

/-- The error at the next token when something else had to follow. -/
def unexpected (p : Parser) (fault : TokenKind → SyntaxFault) : SyntaxError :=
  let t := p.current
  ⟨if t.kind = .invalid then .invalidToken else fault t.kind, t.location⟩

/-! ## Steps -/

def take : Parse Token := fun p => .ok p.current p.advance

/-- Consumes the next token if it is of the kind. -/
def eat (kind : TokenKind) : Parse (Option Token) := fun p =>
  if p.check kind then .ok (some p.current) p.advance else .ok none p

/-- Consumes the next token, which has to be of the kind. -/
def expect (kind : TokenKind) : Parse Token := fun p =>
  if p.check kind then .ok p.current p.advance
  else .error (p.unexpected (.expectedToken kind.description)) p

def enterParens : Parse Unit := modify fun p => { p with nesting := p.nesting + 1 }

def leaveParens : Parse Unit := modify fun p => { p with nesting := p.nesting - 1 }

def openBlock : Parse Unit := modify fun p => { p with openBlocks := p.openBlocks + 1 }

def closeBlock : Parse Unit := modify fun p => { p with openBlocks := p.openBlocks - 1 }

/-- Consumes a separator, and warns when no statement stands right before it. -/
def separator (afterStatement : Bool) (p : Parser) : Parser :=
  if afterStatement then p.advance
  else p.advance.warn "W002" "redundant ';'" p.current.location

/-! ## Recovery

After an error the parser skips what is left of the broken statement.  How many
tokens that is depends on the tokens ahead alone. -/

/-- How many tokens lie up to the `end` that closes the given number of open blocks, that `end`
included. -/
def skipBlocks (depth : Nat) : List Scanned → Nat
  | [] => 0
  | t :: rest =>
    match t.token.kind with
    | .if_ | .while_ => skipBlocks (depth + 1) rest + 1
    | .end_ => if depth ≤ 1 then 1 else skipBlocks (depth - 1) rest + 1
    | _ => skipBlocks depth rest + 1

/-- How many tokens lie before the place where a statement can begin again: behind a separator,
at a keyword that begins a statement, or at the first token of a line. -/
def skipLine (previous : Location) : List Scanned → Nat
  | [] => 0
  | t :: rest =>
    if t.token.kind = .semicolon then 1
    else if t.token.kind.startsStatement then 0
    else if previous.line < t.token.location.line then 0
    else skipLine t.token.location rest + 1

/-- Skips to where the next statement can begin.  Blocks that are still open are skipped whole. -/
def synchronize (p : Parser) : Parser :=
  let count := if p.openBlocks = 0 then skipLine p.previous p.ahead
    else skipBlocks p.openBlocks p.ahead
  advanceBy count { p with openBlocks := 0 }

end Parser
end ScriptEngine
