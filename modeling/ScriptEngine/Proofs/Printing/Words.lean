/-
A script in words on one line.

A word is a piece behind a single space.  The words of a script are its tokens, with a
separator behind every statement and with parentheses around an operand where the
binding powers ask for them and nowhere else (`grouped`).  Numbers are written as the
caller says, because a value has many spellings.

`Printable` says which trees can be written: names are names and no keywords, the
callee of a construction is the name of a class and that of a call is not, and every
number is spelled as a number token that has its value.
-/
import ScriptEngine.Decimal.Reading
import ScriptEngine.Proofs.Token.Pieces
import ScriptEngine.Syntax

namespace ScriptEngine

def BinaryOp.kind : BinaryOp → TokenKind
  | or => .or_ | and => .and_ | equal => .equalEqual | notEqual => .lessGreater
  | less => .less | lessEqual => .lessEqual | greater => .greater | greaterEqual => .greaterEqual
  | add => .plus | sub => .minus | mul => .star | div => .slash

def UnaryOp.kind : UnaryOp → TokenKind
  | neg => .minus
  | not => .not_

@[simp] theorem BinaryOp.ofToken?_kind (op : BinaryOp) : BinaryOp.ofToken? op.kind = some op := by
  cases op <;> rfl

namespace Printing

open Lexer (Piece textOf)

/-! ## Words -/

/-- A word whose text is that of its token. -/
def word (kind : TokenKind) (text : String) : Piece := ⟨[' '], text.toList, kind, text⟩

/-- The written form of a character in a string literal. -/
def escape : Char → List Char
  | '\n' => ['\\', 'n']
  | '\\' => ['\\', '\\']
  | '\x22' => ['\\', '\x22']
  | c => [c]

/-- A string literal in double quotes. -/
def literal (value : String) : Piece :=
  ⟨[' '], '\x22' :: (value.toList.flatMap escape ++ ['\x22']), .string, value⟩

def opening : Piece := word .leftParen "("

def closing : Piece := word .rightParen ")"

def separator : Piece := word .semicolon ";"

/-! ## The words of a tree -/

/-- How tightly an expression holds together: as its operator does, or as a member access. -/
def power : Expr → Nat
  | .binary op _ _ => op.leftPower
  | .unary .. => UnaryOp.power
  | _ => memberPower

/-- An operand that has to hold together with the given power. -/
def grouped (needed : Nat) (e : Expr) (words : List Piece) : List Piece :=
  if power e < needed then opening :: (words ++ [closing]) else words

section
variable (spell : Location → Float → String)

mutual

def exprWords : Expr → List Piece
  | .number l value => [word .number (spell l value)]
  | .bool _ true => [word .true_ "true"]
  | .bool _ false => [word .false_ "false"]
  | .string _ value => [literal value]
  | .variable name => [word .identifier name.name]
  | .binary op left right =>
    grouped op.leftPower left (exprWords left) ++
      word op.kind op.text :: grouped op.rightPower right (exprWords right)
  | .unary _ op e => word op.kind op.text :: grouped UnaryOp.power e (exprWords e)
  | .member object name =>
    grouped memberPower object (exprWords object) ++
      [word .dot ".", word .identifier name.name]
  | .method object name args =>
    grouped memberPower object (exprWords object) ++
      word .dot "." :: word .identifier name.name :: opening :: argumentWords args
  | .call callee args => word .identifier callee.name :: opening :: argumentWords args
  | .construct callee args => word .identifier callee.name :: opening :: argumentWords args

/-- Arguments with the parenthesis that closes them. -/
def argumentWords : List Expr → List Piece
  | [] => [closing]
  | e :: rest => exprWords e ++ moreWords rest

/-- What follows an argument. -/
def moreWords : List Expr → List Piece
  | [] => [closing]
  | e :: rest => word .comma "," :: (exprWords e ++ moreWords rest)

end

def conditionWords (e : Expr) : List Piece := opening :: (exprWords spell e ++ [closing])

mutual

def stmtWords : Stmt → List Piece
  | .assign target value =>
    word .identifier target.name :: word .equal "=" :: exprWords spell value
  | .branch _ condition thenBody none =>
    word .if_ "if" ::
      (conditionWords spell condition ++ (blockWords thenBody ++ [word .end_ "end"]))
  | .branch _ condition thenBody (some elseBody) =>
    word .if_ "if" :: (conditionWords spell condition ++ (blockWords thenBody ++
      word .else_ "else" :: (blockWords elseBody ++ [word .end_ "end"])))
  | .loop _ condition body =>
    word .while_ "while" ::
      (conditionWords spell condition ++ (blockWords body ++ [word .end_ "end"]))
  | .expr e => exprWords spell e
  | .setMember object name value =>
    exprWords spell (.member object name) ++ word .equal "=" :: exprWords spell value
  | .print _ false args => word .print "print" :: opening :: argumentWords spell args
  | .print _ true args => word .println "println" :: opening :: argumentWords spell args

def blockWords : List Stmt → List Piece
  | [] => []
  | s :: rest => stmtWords s ++ separator :: blockWords rest

end

/-! ## What can be written -/

/-- A name that is no keyword. -/
def IsName (name : String) : Prop :=
  (∃ c cs, name.toList = c :: cs ∧ Lexer.isNameStart c = true ∧
    ∀ d ∈ cs, Lexer.isNamePart d = true) ∧ TokenKind.ofKeyword? name = none

/-- A text that the lexer takes for one number. -/
def IsNumeral (text : String) : Prop :=
  (TokenStream.ofString text).tokens = [⟨⟨.number, text, .start⟩, none⟩]

mutual

def PrintableExpr : Expr → Prop
  | .number l value => IsNumeral (spell l value) ∧ Decimal.read? (spell l value) = some value
  | .bool .. | .string .. => True
  | .variable name => IsName name.name
  | .binary _ left right => PrintableExpr left ∧ PrintableExpr right
  | .unary _ _ e => PrintableExpr e
  | .member object name => PrintableExpr object ∧ IsName name.name
  | .method object name args =>
    PrintableExpr object ∧ IsName name.name ∧ PrintableArguments args
  | .call callee args =>
    IsName callee.name ∧ isClassName callee.name = false ∧ PrintableArguments args
  | .construct callee args =>
    IsName callee.name ∧ isClassName callee.name = true ∧ PrintableArguments args

def PrintableArguments : List Expr → Prop
  | [] => True
  | e :: rest => PrintableExpr e ∧ PrintableArguments rest

end

mutual

def PrintableStmt : Stmt → Prop
  | .assign target value => IsName target.name ∧ PrintableExpr spell value
  | .branch _ condition thenBody none => PrintableExpr spell condition ∧ PrintableBlock thenBody
  | .branch _ condition thenBody (some elseBody) =>
    PrintableExpr spell condition ∧ PrintableBlock thenBody ∧ PrintableBlock elseBody
  | .loop _ condition body => PrintableExpr spell condition ∧ PrintableBlock body
  | .expr e => PrintableExpr spell e
  | .setMember object name value =>
    PrintableExpr spell object ∧ IsName name.name ∧ PrintableExpr spell value
  | .print _ _ args => PrintableArguments spell args

def PrintableBlock : List Stmt → Prop
  | [] => True
  | s :: rest => PrintableStmt s ∧ PrintableBlock rest

end
end

/-! ## The text -/

/-- Words one behind the other, with spaces between them. -/
def spaced : List Piece → List Piece
  | [] => []
  | first :: rest => first.behind [] :: rest

/-- The text of words. -/
def render (words : List Piece) : String := String.ofList (textOf (spaced words) [])

end Printing
end ScriptEngine
