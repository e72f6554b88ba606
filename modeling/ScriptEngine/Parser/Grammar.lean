/-
The grammar of scripts, as steps of a parser.

Expressions are parsed by binding powers: an operand is extended by an operator
as long as the operator holds its left side at least as tightly as the caller
asks for, and the right side is parsed with the operator's right power.  Two
tokens go on with an expression only on the line of the token before them: a
minus, and a parenthesis behind a name.

The steps call each other, and each call gets one step less to spend.  Every
cycle of calls consumes a token, so four steps for every token ahead are enough
(`Parser.budget`), and the functions at the end spend exactly that.
-/
import ScriptEngine.Decimal.Reading
import ScriptEngine.Parser.State
import ScriptEngine.Syntax
import ScriptEngine.Token.Lexer

namespace ScriptEngine
namespace Parser

/-- Fails at the next token because the steps are used up. -/
def giveUp {α : Type} : Parse α := fun p => .error ⟨.outOfSteps, p.current.location⟩ p

/-- Fails at the next token for the given cause. -/
def failHere {α : Type} (fault : TokenKind → SyntaxFault) : Parse α := fun p =>
  .error (p.unexpected fault) p

/-- Consumes the next token and gives what was made from it. -/
def leaf (e : Expr) : Parse Expr := do
  let _ ← take
  pure e

/-- The name of a member. -/
def memberName : Parse Ident := do
  if (← get).check .identifier then
    let t ← take
    pure ⟨t.lexeme, t.location⟩
  else failHere .expectedIdentifier

/-- A call of a name constructs an instance if the name is that of a class. -/
def mkCall (callee : Ident) (args : List Expr) : Expr :=
  if isClassName callee.name then .construct callee args else .call callee args

/-! ## Expressions -/

mutual

/-- An expression whose operators hold at least as tightly as `power`. -/
def exprIn : Nat → Nat → Parse Expr
  | 0, _ => giveUp
  | steps + 1, power => do
    let left ← operandIn steps
    chainIn steps power left

/-- Extends an expression by member accesses and by operators that hold at least as tightly as
`power`. -/
def chainIn : Nat → Nat → Expr → Parse Expr
  | 0, _, _ => giveUp
  | steps + 1, power, left => do
    let p ← get
    if p.check .dot then
      if memberPower < power then pure left
      else
        let _ ← take
        let name ← memberName
        if (← get).check .leftParen then
          let args ← argumentsIn steps
          chainIn steps power (.method left name args)
        else chainIn steps power (.member left name)
    else
      match BinaryOp.ofToken? p.current.kind with
      | none => pure left
      | some op =>
        if op = .sub ∧ p.atLineStart then pure left
        else if op.leftPower < power then pure left
        else
          let _ ← take
          let right ← exprIn steps op.rightPower
          chainIn steps power (.binary op left right)

/-- What an expression begins with: a literal, a name, a call, an expression in parentheses, or an
operand behind a prefix operator. -/
def operandIn : Nat → Parse Expr
  | 0 => giveUp
  | steps + 1 => do
    let p ← get
    let t := p.current
    match t.kind with
    | .number =>
      let _ ← take
      match Decimal.read? t.lexeme with
      | some value => pure (.number t.location value)
      | none => throw ⟨.malformedNumber t.lexeme, t.location⟩
    | .string => leaf (.string t.location t.lexeme)
    | .true_ => leaf (.bool t.location true)
    | .false_ => leaf (.bool t.location false)
    | .identifier =>
      let _ ← take
      let next ← get
      if next.check .leftParen ∧ ¬ next.atLineStart then
        let args ← argumentsIn steps
        pure (mkCall ⟨t.lexeme, t.location⟩ args)
      else pure (.variable ⟨t.lexeme, t.location⟩)
    | .leftParen =>
      let _ ← take
      enterParens
      let inner ← exprIn steps 0
      let _ ← expect .rightParen
      leaveParens
      pure inner
    | .minus =>
      let _ ← take
      let operand ← exprIn steps UnaryOp.power
      pure (.unary t.location .neg operand)
    | .not_ =>
      let _ ← take
      let operand ← exprIn steps UnaryOp.power
      pure (.unary t.location .not operand)
    | .eof => throw ⟨.endBeforeExpression, t.location⟩
    | _ => failHere .expectedExpression

/-- An argument list in parentheses. -/
def argumentsIn : Nat → Parse (List Expr)
  | 0 => giveUp
  | steps + 1 => do
    let _ ← expect .leftParen
    match ← eat .rightParen with
    | some _ => pure []
    | none =>
      enterParens
      let args ← itemsIn steps
      leaveParens
      pure args

/-- The arguments of a list that is not empty, and the parenthesis that closes it. -/
def itemsIn : Nat → Parse (List Expr)
  | 0 => giveUp
  | steps + 1 => do
    let first ← exprIn steps 0
    match ← eat .comma with
    | some _ =>
      let more ← itemsIn steps
      pure (first :: more)
    | none =>
      match ← eat .rightParen with
      | some _ => pure [first]
      | none => failHere (.expectedToken "',' or ')'")

end

/-! ## Statements -/

def conditionIn (steps : Nat) : Parse Expr := do
  let _ ← expect .leftParen
  let condition ← exprIn steps 0
  let _ ← expect .rightParen
  pure condition

/-- An assignment or an expression that stands alone.  What can be assigned is decided after the
value has been read. -/
def simpleIn (steps : Nat) : Parse Stmt := do
  let left ← exprIn steps 0
  match ← eat .equal with
  | none => pure (.expr left)
  | some _ =>
    let value ← exprIn steps 0
    match left with
    | .variable target => pure (.assign target value)
    | .member object name => pure (.setMember object name value)
    | _ => throw ⟨.invalidTarget, left.location⟩

/-- Whether a block is empty. -/
def isEmptyBlock : Option (List Stmt) → Bool
  | none => true
  | some body => body.isEmpty

/-- Warns that the statement of a keyword has nothing in its blocks. -/
def warnEmpty (keyword : Token) (word : String) (isEmpty : Bool) : Parse Unit :=
  modify fun p =>
    if isEmpty then p.warn "W001" ("empty '" ++ word ++ "' body") keyword.location else p

mutual

def statementIn : Nat → Parse Stmt
  | 0 => giveUp
  | steps + 1 => do
    let p ← get
    let t := p.current
    match t.kind with
    | .if_ =>
      let _ ← take
      openBlock
      let condition ← conditionIn steps
      let thenBody ← blockIn steps t true false
      let elseBody ← match ← eat .else_ with
        | some _ => do
          let body ← blockIn steps t false false
          pure (some body)
        | none => pure none
      let _ ← expect .end_
      closeBlock
      warnEmpty t "if" (thenBody.isEmpty && isEmptyBlock elseBody)
      pure (.branch t.location condition thenBody elseBody)
    | .while_ =>
      let _ ← take
      openBlock
      let condition ← conditionIn steps
      let body ← blockIn steps t false false
      let _ ← expect .end_
      closeBlock
      warnEmpty t "while" body.isEmpty
      pure (.loop t.location condition body)
    | .print =>
      let _ ← take
      let args ← argumentsIn steps
      pure (.print t.location false args)
    | .println =>
      let _ ← take
      let args ← argumentsIn steps
      pure (.print t.location true args)
    | .end_ | .else_ => throw ⟨.unexpectedToken t.kind, t.location⟩
    | _ => simpleIn steps

/-- The statements of a block, up to the token that ends it: `end`, or `else` where the block may
have an alternative. -/
def blockIn : Nat → Token → (mayElse afterStatement : Bool) → Parse (List Stmt)
  | 0, _, _, _ => giveUp
  | steps + 1, opener, mayElse, afterStatement => do
    let p ← get
    if p.check .end_ ∨ (mayElse ∧ p.check .else_) then pure []
    else if p.check .eof then
      throw ⟨.unterminatedBlock opener.lexeme opener.location, p.current.location⟩
    else if p.check .semicolon then
      modify (separator afterStatement)
      blockIn steps opener mayElse false
    else
      let first ← statementIn steps
      let more ← blockIn steps opener mayElse true
      pure (first :: more)

end

/-! ## Parsing with enough steps -/

/-- Enough steps for any parse of the tokens ahead. -/
def budget (p : Parser) : Nat := 4 * (p.ahead.length + 2)

/-- Parses an expression whose operators hold at least as tightly as `power`. -/
def expr (power : Nat) : Parse Expr := fun p => exprIn p.budget power p

def statement : Parse Stmt := fun p => statementIn p.budget p

/-- Resumes after the statement that began at `start` failed.  A statement that consumed nothing
gives up its first token, so that every pass consumes one. -/
def recover (start : Location) (e : SyntaxError) (p : Parser) : Parser :=
  let reported := { p.report e with nesting := 0 }
  synchronize (if reported.current.location = start then reported.advance else reported)

/-- Parses statements and separators to the end, in at most the given number of passes. -/
def scriptIn : Nat → Bool → Parser → List Stmt × Parser
  | 0, _, p => ([], p)
  | passes + 1, afterStatement, p =>
    if p.atEnd then ([], p)
    else if p.check .semicolon then scriptIn passes false (p.separator afterStatement)
    else
      match statement p with
      | .ok s next =>
        let (more, last) := scriptIn passes true next
        (s :: more, last)
      | .error e next => scriptIn passes false (recover p.current.location e next)

/-- Parses statements to the end of the script.  Each pass consumes a token, so the tokens ahead
bound the passes. -/
def script (p : Parser) : Script × Parser :=
  let (statements, last) := scriptIn p.ahead.length false p
  (⟨statements⟩, last)

end Parser

/-- The script that a text parses to, and the messages about it.  A statement that does not parse
is left out. -/
def Script.parse (text : String) : Script × Diagnostics :=
  let (script, last) := (Parser.ofTokens (.ofString text)).script
  (script, last.diagnostics)

end ScriptEngine
