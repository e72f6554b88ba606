/-
What code stands for a piece of syntax.

`Translation.Expression p functions e out` says that the listing `out`, instructions
with their lines, is a translation of the expression `e` in the program `p`: its
operands refer to entries of the tables of `p` that are what the expression names,
and its calls to functions of the registry.  Statements have jumps, so their
translations depend on the offset at which they start.

The relation is independent of the compiler.  It leaves open which index a constant,
a variable or a method has, and the lines of instructions that cannot fail: a `pop`
and the jump over an alternative.
-/
import ScriptEngine.Compiler.Compile

namespace ScriptEngine

/-- Instructions with their lines. -/
abbrev Listing := List (Instruction × Nat)

/-- What follows an expression that stands alone: unless it is the last statement, its value is
taken off the stack. -/
def popUnless (isLast : Bool) (line : Nat) : Listing := if isLast then [] else [(.pop, line)]

namespace Translation

section
variable (p : Program) (functions : FunctionRegistry)

mutual

inductive Expression : Expr → Listing → Prop where
  | number {l x i k} : p.constants.get? i = some k → k.same (.number x) = true →
      Expression (.number l x) [(.constant i, l.line)]
  | bool {l b i k} : p.constants.get? i = some k → k.same (.bool b) = true →
      Expression (.bool l b) [(.constant i, l.line)]
  | string {l s i k} : p.constants.get? i = some k → k.same (.string s) = true →
      Expression (.string l s) [(.constant i, l.line)]
  | variable {name i} : p.slotNames[i]? = some name.name →
      Expression (.variable name) [(.load i, name.location.line)]
  | binary {op left right first second} : Expression left first → Expression right second →
      Expression (.binary op left right) (first ++ (second ++ [(.binary op, left.location.line)]))
  | unary {l op e out} : Expression e out →
      Expression (.unary l op e) (out ++ [(.unary op, l.line)])
  | member {object name i out} : Expression object out →
      p.methods[i]? = some (Compiler.tableOf functions name.name 0) →
      Expression (.member object name) (out ++ [(.callMethod i 0, object.location.line)])
  | method {object name args i first second} : Expression object first → Arguments args second →
      p.methods[i]? = some (Compiler.tableOf functions name.name args.length) →
      Expression (.method object name args)
        (first ++ (second ++ [(.callMethod i args.length, object.location.line)]))
  | call {callee args handle out} : Arguments args out →
      functions.resolve callee.name args.length = .ok (some handle) →
      Expression (.call callee args)
        (out ++ [(.call handle args.length, callee.location.line)])
  | construct {callee args handle out} : Arguments args out →
      functions.resolve (Members.constructorName callee.name) args.length = .ok (some handle) →
      Expression (.construct callee args)
        (out ++ [(.call handle args.length, callee.location.line)])

inductive Arguments : List Expr → Listing → Prop where
  | nil : Arguments [] []
  | cons {e rest first second} : Expression e first → Arguments rest second →
      Arguments (e :: rest) (first ++ second)

end

mutual

inductive Statement : (isLast : Bool) → (start : Nat) → Stmt → Listing → Prop where
  | assign {isLast start target value i out} : Expression p functions value out →
      p.slotNames[i]? = some target.name →
      Statement isLast start (.assign target value) (out ++ [(.store i, target.location.line)])
  | branch {isLast start l condition thenBody test body} :
      Expression p functions condition test → Block (start + test.length + 1) thenBody body →
      Statement isLast start (.branch l condition thenBody none)
        (test ++ (.jumpIfFalse (start + test.length + 1 + body.length), l.line) :: body)
  | alternative {isLast start l condition thenBody elseBody test body other line} :
      Expression p functions condition test → Block (start + test.length + 1) thenBody body →
      Block (start + test.length + 1 + body.length + 1) elseBody other →
      Statement isLast start (.branch l condition thenBody (some elseBody))
        (test ++ (.jumpIfFalse (start + test.length + 1 + body.length + 1), l.line) ::
          (body ++ (.jump (start + test.length + 1 + body.length + 1 + other.length), line) ::
            other))
  | loop {isLast start l condition body test code line} :
      Expression p functions condition test → Block (start + test.length + 1) body code →
      Statement isLast start (.loop l condition body)
        (test ++ (.jumpIfFalse (start + test.length + 1 + code.length + 1), l.line) ::
          (code ++ [(.jump start, line)]))
  | expr {isLast start e out line} : Expression p functions e out →
      Statement isLast start (.expr e) (out ++ popUnless isLast line)
  | setMember {isLast start object name value i first second line} :
      Expression p functions object first → Expression p functions value second →
      p.methods[i]? = some (Compiler.tableOf functions (Members.setterName name.name) 1) →
      Statement isLast start (.setMember object name value)
        (first ++ (second ++ (.callMethod i 1, object.location.line) :: popUnless isLast line))
  | print {isLast start l newline args handle out line} : Arguments p functions args out →
      functions.resolve (printFunction newline) args.length = .ok (some handle) →
      Statement isLast start (.print l newline args)
        (out ++ [(.call handle args.length, l.line), (.pop, line)])

inductive Block : (start : Nat) → List Stmt → Listing → Prop where
  | nil {start} : Block start [] []
  | cons {start s rest first second} : Statement false start s first →
      Block (start + first.length) rest second → Block start (s :: rest) (first ++ second)

end

/-- The statements of a script: the last one may leave its value. -/
inductive Statements : (start : Nat) → List Stmt → Listing → Prop where
  | nil {start} : Statements start [] []
  | cons {start s rest first second} : Statement p functions rest.isEmpty start s first →
      Statements (start + first.length) rest second → Statements start (s :: rest) (first ++ second)

end

end Translation

/-! ## Literals -/

mutual

def Expr.literals : Expr → List Constant
  | .number _ x => [.number x]
  | .bool _ b => [.bool b]
  | .string _ s => [.string s]
  | .variable _ => []
  | .binary _ left right => left.literals ++ right.literals
  | .unary _ _ e => e.literals
  | .member object _ => object.literals
  | .method object _ args => object.literals ++ argumentLiterals args
  | .call _ args => argumentLiterals args
  | .construct _ args => argumentLiterals args

def argumentLiterals : List Expr → List Constant
  | [] => []
  | e :: rest => e.literals ++ argumentLiterals rest

end

mutual

def Stmt.literals : Stmt → List Constant
  | .assign _ value => value.literals
  | .branch _ condition thenBody none => condition.literals ++ blockLiterals thenBody
  | .branch _ condition thenBody (some elseBody) =>
    condition.literals ++ (blockLiterals thenBody ++ blockLiterals elseBody)
  | .loop _ condition body => condition.literals ++ blockLiterals body
  | .expr e => e.literals
  | .setMember object _ value => object.literals ++ value.literals
  | .print _ _ args => argumentLiterals args

def blockLiterals : List Stmt → List Constant
  | [] => []
  | s :: rest => s.literals ++ blockLiterals rest

end

end ScriptEngine
