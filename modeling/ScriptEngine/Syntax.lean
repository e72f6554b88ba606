/-
The syntax of scripts.

A script is a list of statements.  Leaves and keywords carry the place where
they stand; the place of any other node is that of its first part, so
`Expr.location` and `Stmt.location` are readings of the tree and not fields of
their own.
-/
import ScriptEngine.Token

namespace ScriptEngine

/-- The operators between two operands. -/
inductive BinaryOp where
  | or | and | equal | notEqual | less | lessEqual | greater | greaterEqual
  | add | sub | mul | div
  deriving DecidableEq, Repr

namespace BinaryOp

def text : BinaryOp → String
  | or => "or" | and => "and" | equal => "==" | notEqual => "<>"
  | less => "<" | lessEqual => "<=" | greater => ">" | greaterEqual => ">="
  | add => "+" | sub => "-" | mul => "*" | div => "/"

/-- The operator that a token stands for between two operands. -/
def ofToken? : TokenKind → Option BinaryOp
  | .or_ => some or | .and_ => some and
  | .equalEqual => some equal | .lessGreater => some notEqual
  | .less => some less | .lessEqual => some lessEqual
  | .greater => some greater | .greaterEqual => some greaterEqual
  | .plus => some add | .minus => some sub | .star => some mul | .slash => some div
  | _ => none

/-- How tightly an operator holds its left operand. -/
def leftPower : BinaryOp → Nat
  | or => 1
  | and => 3
  | equal | notEqual => 5
  | less | lessEqual | greater | greaterEqual => 7
  | add | sub => 9
  | mul | div => 11

/-- How tightly an operator holds its right operand.  It holds it tighter than the left one, so
that operators of one rank group to the left. -/
def rightPower (op : BinaryOp) : Nat := op.leftPower + 1

end BinaryOp

/-- The operators before an operand. -/
inductive UnaryOp where
  | neg | not
  deriving DecidableEq, Repr

namespace UnaryOp

def text : UnaryOp → String
  | neg => "-"
  | not => "not"

/-- The operator that a token stands for before an operand. -/
def ofToken? : TokenKind → Option UnaryOp
  | .minus => some neg
  | .not_ => some not
  | _ => none

/-- How tightly an operator holds its operand: tighter than any binary operator. -/
def power : Nat := 13

end UnaryOp

/-- How tightly a member access holds its receiver: tighter than any operator. -/
def memberPower : Nat := 15

/-- A name and the place where it stands. -/
structure Ident where
  name : String
  location : Location
  deriving DecidableEq, Repr

/-- A class has a name that begins with an ASCII capital.  A call of such a name constructs an
instance. -/
def isClassName (name : String) : Bool :=
  match name.toList with
  | c :: _ => 'A' ≤ c ∧ c ≤ 'Z'
  | [] => false

inductive Expr where
  | number (location : Location) (value : Float)
  | bool (location : Location) (value : Bool)
  | string (location : Location) (value : String)
  | variable (name : Ident)
  | binary (op : BinaryOp) (left right : Expr)
  | unary (location : Location) (op : UnaryOp) (operand : Expr)
  | member (object : Expr) (name : Ident)
  | method (object : Expr) (name : Ident) (args : List Expr)
  | call (callee : Ident) (args : List Expr)
  | construct (callee : Ident) (args : List Expr)

instance : Inhabited Expr := ⟨.bool .start false⟩

/-- The place of an expression: that of its first part. -/
def Expr.location : Expr → Location
  | .number l _ => l
  | .bool l _ => l
  | .string l _ => l
  | .variable name => name.location
  | .binary _ left _ => left.location
  | .unary l _ _ => l
  | .member object _ => object.location
  | .method object _ _ => object.location
  | .call callee _ => callee.location
  | .construct callee _ => callee.location

/-- Statements.  An assignment to a member is a statement; like an expression that stands alone
it leaves a value. -/
inductive Stmt where
  | assign (target : Ident) (value : Expr)
  | branch (location : Location) (condition : Expr) (thenBody : List Stmt)
      (elseBody : Option (List Stmt))
  | loop (location : Location) (condition : Expr) (body : List Stmt)
  | expr (expr : Expr)
  | setMember (object : Expr) (name : Ident) (value : Expr)
  | print (location : Location) (newline : Bool) (args : List Expr)

instance : Inhabited Stmt := ⟨.expr default⟩

/-- The place of a statement: that of its first part. -/
def Stmt.location : Stmt → Location
  | .assign target _ => target.location
  | .branch l _ _ _ => l
  | .loop l _ _ => l
  | .expr e => e.location
  | .setMember object _ _ => object.location
  | .print l _ _ => l

/-- The function that a print statement calls. -/
def printFunction (newline : Bool) : String := if newline then "println" else "print"

structure Script where
  statements : List Stmt

namespace Script

def isEmpty (s : Script) : Bool := s.statements.isEmpty

end Script
end ScriptEngine
