/-
An outline of a parsed script.

Every node gives one line, indented by its depth, and the lines of its parts
follow it.  A condition, a body and an alternative have header lines of their
own, so the outline shows which part a node belongs to.
-/
import ScriptEngine.Decimal.Shortest
import ScriptEngine.Syntax

namespace ScriptEngine
namespace Outline

/-- A line of an outline: its depth and its words. -/
structure Line where
  depth : Nat
  words : String
  deriving DecidableEq, Repr

def boolText (b : Bool) : String := if b then "true" else "false"

mutual

def ofExpr (depth : Nat) : Expr → List Line
  | .number _ value => [⟨depth, "Number " ++ Decimal.text value⟩]
  | .bool _ value => [⟨depth, "Bool " ++ boolText value⟩]
  | .string _ value => [⟨depth, "String " ++ Text.quote value⟩]
  | .variable name => [⟨depth, "Identifier " ++ name.name⟩]
  | .binary op left right =>
    ⟨depth, "Binary " ++ op.text⟩ :: ofExpr (depth + 1) left ++ ofExpr (depth + 1) right
  | .unary _ op operand => ⟨depth, "Unary " ++ op.text⟩ :: ofExpr (depth + 1) operand
  | .member object name => ⟨depth, "MemberGet " ++ name.name⟩ :: ofExpr (depth + 1) object
  | .method object name args =>
    ⟨depth, "MethodCall " ++ name.name⟩ :: ofExpr (depth + 1) object ++ ofExprs (depth + 1) args
  | .call callee args => ⟨depth, "FunctionCall " ++ callee.name⟩ :: ofExprs (depth + 1) args
  | .construct callee args => ⟨depth, "ConstructorCall " ++ callee.name⟩ :: ofExprs (depth + 1) args

def ofExprs (depth : Nat) : List Expr → List Line
  | [] => []
  | e :: es => ofExpr depth e ++ ofExprs depth es

end

mutual

def ofStmt (depth : Nat) : Stmt → List Line
  | .assign target value => ⟨depth, "Assignment " ++ target.name⟩ :: ofExpr (depth + 1) value
  | .branch _ condition thenBody elseBody =>
    ⟨depth, "If"⟩ :: ⟨depth + 1, "Condition"⟩ :: ofExpr (depth + 2) condition ++
      ⟨depth + 1, "Then"⟩ :: ofStmts (depth + 2) thenBody ++
      match elseBody with
      | some body => ⟨depth + 1, "Else"⟩ :: ofStmts (depth + 2) body
      | none => []
  | .loop _ condition body =>
    ⟨depth, "While"⟩ :: ⟨depth + 1, "Condition"⟩ :: ofExpr (depth + 2) condition ++
      ⟨depth + 1, "Body"⟩ :: ofStmts (depth + 2) body
  | .expr e => ⟨depth, "Expression"⟩ :: ofExpr (depth + 1) e
  | .setMember object name value =>
    ⟨depth, "Expression"⟩ :: ⟨depth + 1, "MemberSet " ++ name.name⟩ ::
      ofExpr (depth + 2) object ++ ofExpr (depth + 2) value
  | .print _ newline args => ⟨depth, "Print " ++ printFunction newline⟩ :: ofExprs (depth + 1) args

def ofStmts (depth : Nat) : List Stmt → List Line
  | [] => []
  | s :: rest => ofStmt depth s ++ ofStmts depth rest

end

/-- The written form of a line: two blanks for each depth, the words and a newline. -/
def Line.text (line : Line) : String := "".pushn ' ' (2 * line.depth) ++ line.words ++ "\n"

end Outline

def Script.dump (s : Script) : String :=
  String.join ((Outline.ofStmts 0 s.statements).map Outline.Line.text)

end ScriptEngine
