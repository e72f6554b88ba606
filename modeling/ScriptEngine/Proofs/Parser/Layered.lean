/-
The layered grammar of expressions, as a parser by recursive descent.

The grammar of `Parser/Grammar.lean` has one loop that compares binding powers.
Here is the grammar that these powers stand for, with one level for each rank of
operators:

  or < and < equality < relational < additive < multiplicative
     < prefixed < member < primary

A level of binary operators is a list of expressions of the next level joined to
the left.  The prefixed level is right-nested, the member level is a primary
expression followed by member accesses and method calls, and no level knows any
binding power.  Two tokens go on with an expression only on the line of the token
before them, as in the grammar: a minus, and a parenthesis behind a name.

Every cycle of calls consumes a token, and the longest way through the levels at
one token is that from an argument down to a primary expression, so twelve steps
for every token are enough.
-/
import ScriptEngine.Parser.Grammar

namespace ScriptEngine

/-- The levels of the grammar, loosest first.  The last one is no level of operators: it is a
prefixed expression whose operand, where no prefix operator stands, has no members behind it. -/
inductive Level where
  | or | and | equality | relational | additive | multiplicative
  | prefixed | member | primary | bare
  deriving DecidableEq, Repr

namespace Level

/-- The level of the parts that a level is made of. -/
def next : Level → Level
  | or => and
  | and => equality
  | equality => relational
  | relational => additive
  | additive => multiplicative
  | multiplicative => prefixed
  | prefixed => member
  | member | primary | bare => primary

/-- The level that a binding power starts at. -/
def ofPower (power : Nat) : Level :=
  if power ≤ 1 then or
  else if power ≤ 3 then and
  else if power ≤ 5 then equality
  else if power ≤ 7 then relational
  else if power ≤ 9 then additive
  else if power ≤ 11 then multiplicative
  else if power ≤ 15 then prefixed
  else bare

end Level

/-- The level of a binary operator. -/
def BinaryOp.level : BinaryOp → Level
  | or => .or
  | and => .and
  | equal | notEqual => .equality
  | less | lessEqual | greater | greaterEqual => .relational
  | add | sub => .additive
  | mul | div => .multiplicative

namespace Parser
namespace Layered

/-- The operator that goes on with an expression at the next token.  A minus that begins a line
begins a statement. -/
def operator? (p : Parser) : Option BinaryOp :=
  match BinaryOp.ofToken? p.current.kind with
  | some op => if op = .sub ∧ p.atLineStart then none else some op
  | none => none

mutual

def levelIn : Nat → Level → Parse Expr
  | 0, _ => giveUp
  | steps + 1, .prefixed => do
    let t := (← get).current
    match UnaryOp.ofToken? t.kind with
    | some op =>
      let _ ← take
      let operand ← levelIn steps .prefixed
      pure (.unary t.location op operand)
    | none => levelIn steps .member
  | steps + 1, .bare => do
    let t := (← get).current
    match UnaryOp.ofToken? t.kind with
    | some op =>
      let _ ← take
      let operand ← levelIn steps .prefixed
      pure (.unary t.location op operand)
    | none => levelIn steps .primary
  | steps + 1, .member => do
    let object ← levelIn steps .primary
    membersIn steps object
  | steps + 1, .primary => primaryIn steps
  | steps + 1, level => do
    let left ← levelIn steps level.next
    joinIn steps level left

/-- The operators of a level with their right sides, joined to the left. -/
def joinIn : Nat → Level → Expr → Parse Expr
  | 0, _, _ => giveUp
  | steps + 1, level, left => do
    match operator? (← get) with
    | some op =>
      if op.level = level then
        let _ ← take
        let right ← levelIn steps level.next
        joinIn steps level (.binary op left right)
      else pure left
    | none => pure left

/-- The member accesses and method calls behind an object. -/
def membersIn : Nat → Expr → Parse Expr
  | 0, _ => giveUp
  | steps + 1, object => do
    match ← eat .dot with
    | none => pure object
    | some _ =>
      let name ← memberName
      if (← get).check .leftParen then
        let args ← argumentsIn steps
        membersIn steps (.method object name args)
      else membersIn steps (.member object name)

def primaryIn : Nat → Parse Expr
  | 0 => giveUp
  | steps + 1 => do
    let t := (← get).current
    match t.kind with
    | .number =>
      let _ ← take
      match Decimal.read? t.lexeme with
      | some value => pure (.number t.location value)
      | none => throw ⟨.malformedNumber t.lexeme, t.location⟩
    | .string => leaf (.string t.location t.lexeme)
    | .true_ => leaf (.bool t.location true)
    | .false_ => leaf (.bool t.location false)
    | .identifier =>
      let _ ← take
      let next ← get
      if next.check .leftParen ∧ ¬ next.atLineStart then
        let args ← argumentsIn steps
        pure (mkCall ⟨t.lexeme, t.location⟩ args)
      else pure (.variable ⟨t.lexeme, t.location⟩)
    | .leftParen =>
      let _ ← take
      enterParens
      let inner ← levelIn steps .or
      let _ ← expect .rightParen
      leaveParens
      pure inner
    | .eof => throw ⟨.endBeforeExpression, t.location⟩
    | _ => failHere .expectedExpression

def argumentsIn : Nat → Parse (List Expr)
  | 0 => giveUp
  | steps + 1 => do
    let _ ← expect .leftParen
    match ← eat .rightParen with
    | some _ => pure []
    | none =>
      enterParens
      let args ← itemsIn steps
      leaveParens
      pure args

def itemsIn : Nat → Parse (List Expr)
  | 0 => giveUp
  | steps + 1 => do
    let first ← levelIn steps .or
    match ← eat .comma with
    | some _ =>
      let more ← itemsIn steps
      pure (first :: more)
    | none =>
      match ← eat .rightParen with
      | some _ => pure [first]
      | none => failHere (.expectedToken "',' or ')'")

end

/-- Parses an expression of a level. -/
def level (l : Level) : Parse Expr := fun p => levelIn (12 * (p.ahead.length + 1)) l p

end Layered
end Parser
end ScriptEngine
