/-
Direct evaluation of scripts.

The value of an expression and the effect of a statement are given here by recursion on
the syntax, without a program and without a stack.  Operands and arguments are evaluated
from the left to the right and a receiver before the arguments, both sides of a logical
operator are evaluated, and an assignment evaluates its value first.  A fault carries
the line of the node that it belongs to.

There are two parameters.  `limit` is how many operands may be pending at once, if that
is limited at all: a value that is one too many is a fault at the place where it would
become an operand.  `passes` bounds how often a loop tests its condition, so that
evaluation is a function; an evaluation that needs more passes is unfinished.
-/
import ScriptEngine.Compiler.Compile
import ScriptEngine.Machine.Run

namespace ScriptEngine
namespace Direct

/-- What evaluation acts on: the variables and the world. -/
structure Environment where
  values : String → Value
  world : World

/-- Why an evaluation gives no value. -/
inductive Stop where
  | fault (error : RuntimeError)
  /-- There is no function of the name. -/
  | unresolved
  /-- A loop needs more passes. -/
  | unfinished

abbrev Evaluation (α : Type) := EStateM Stop Environment α

def fail {α : Type} (line : Nat) (fault : RuntimeFault) : Evaluation α :=
  throw (.fault ⟨fault, line⟩)

def check {α : Type} (line : Nat) : Except RuntimeFault α → Evaluation α
  | .ok a => pure a
  | .error fault => fail line fault

/-- Makes a value an operand while others are pending. -/
def hold (limit : Option Nat) (pending line : Nat) (v : Value) : Evaluation Value :=
  match limit with
  | none => pure v
  | some capacity => if pending < capacity then pure v else fail line (.stackOverflow capacity)

def readVariable (name : Ident) : Evaluation Value := do
  match (← get).values name.name with
  | .unset => fail name.location.line (.unsetVariable name.name)
  | v => pure v

def Environment.assign (env : Environment) (name : String) (v : Value) : Environment :=
  { env with values := fun x => if x = name then v else env.values x }

/-! ## Functions -/

def function (functions : FunctionRegistry) (name : String) (argc : Nat) : Evaluation Nat :=
  match functions.resolve name argc with
  | .ok (some handle) => pure handle
  | _ => throw .unresolved

def invoke (functions : FunctionRegistry) (handle line : Nat) (args : List Value) :
    Evaluation Value := fun env =>
  match functions.entry? handle with
  | none => .error .unresolved env
  | some entry =>
    match (entry.function.call args).run env.world with
    | .ok v changed => .ok v { env with world := changed }
    | .error e changed => .error (.fault ⟨.native entry.name e, line⟩) { env with world := changed }

/-- The function that implements a method for a receiver: the one registered last for its class. -/
def implementation (functions : FunctionRegistry) (method : String) (argc : Nat) :
    Value → Except RuntimeFault Nat
  | .object ref =>
    let known := functions.implementations method argc
    match known.reverse.lookup ref.className with
    | some handle => .ok handle
    | none =>
      match known with
      | [] => .error (.noSuchMethod ref.className method argc)
      | (className, _) :: rest =>
        if rest.all (·.1 = className) then .error (.wrongReceiver method className ref.className)
        else .error (.noSuchMethod ref.className method argc)
  | v => .error (.notAnObject method v.typeName)

def callMethod (functions : FunctionRegistry) (method : String) (argc line : Nat)
    (receiver : Value) (args : List Value) : Evaluation Value := do
  let handle ← check line (implementation functions method argc receiver)
  invoke functions handle line (receiver :: args)

/-! ## Syntax -/

section
variable (functions : FunctionRegistry) (limit : Option Nat)

mutual

def expr (pending : Nat) : Expr → Evaluation Value
  | .number l x => hold limit pending l.line (.number x)
  | .bool l b => hold limit pending l.line (.bool b)
  | .string l s => hold limit pending l.line (.string s)
  | .variable name => do
    let v ← readVariable name
    hold limit pending name.location.line v
  | .binary op left right => do
    let a ← expr pending left
    let b ← expr (pending + 1) right
    let env ← get
    check left.location.line (Value.binary env.world.store op a b)
  | .unary l op e => do
    let v ← expr pending e
    check l.line (Value.unary op v)
  | .member object name => do
    let receiver ← expr pending object
    callMethod functions name.name 0 object.location.line receiver []
  | .method object name args => do
    let receiver ← expr pending object
    let vs ← exprs (pending + 1) args
    callMethod functions name.name args.length object.location.line receiver vs
  | .call callee args => do
    let handle ← function functions callee.name args.length
    let vs ← exprs pending args
    let v ← invoke functions handle callee.location.line vs
    hold limit pending callee.location.line v
  | .construct callee args => do
    let handle ← function functions (Members.constructorName callee.name) args.length
    let vs ← exprs pending args
    let v ← invoke functions handle callee.location.line vs
    hold limit pending callee.location.line v

def exprs (pending : Nat) : List Expr → Evaluation (List Value)
  | [] => pure []
  | e :: rest => do
    let v ← expr pending e
    let vs ← exprs (pending + 1) rest
    pure (v :: vs)

end

/-- The truth value of the condition of a statement. -/
def condition (line : Nat) (e : Expr) : Evaluation Bool := do
  let v ← expr functions limit 0 e
  check line v.condition

/-- Tests a condition before each pass, and goes on while it is true. -/
def repeatWhile (test : Evaluation Bool) (body : Evaluation Unit) : Nat → Evaluation Unit
  | 0 => throw .unfinished
  | passes + 1 => do
    if ← test then
      body
      repeatWhile test body passes
    else pure ()

variable (passes : Nat)

mutual

/-- The value of a statement, which only expressions have. -/
def stmt : Stmt → Evaluation Value
  | .assign target value => do
    let v ← expr functions limit 0 value
    modify fun env => env.assign target.name v
    pure .unset
  | .branch l e thenBody none => do
    if ← condition functions limit l.line e then block thenBody else pure ()
    pure .unset
  | .branch l e thenBody (some elseBody) => do
    if ← condition functions limit l.line e then block thenBody else block elseBody
    pure .unset
  | .loop l e body => do
    repeatWhile (condition functions limit l.line e) (block body) passes
    pure .unset
  | .expr e => expr functions limit 0 e
  | .setMember object name value => do
    let receiver ← expr functions limit 0 object
    let v ← expr functions limit 1 value
    callMethod functions (Members.setterName name.name) 1 object.location.line receiver [v]
  | .print l newline args => do
    let handle ← function functions (printFunction newline) args.length
    let vs ← exprs functions limit 0 args
    let _ ← invoke functions handle l.line vs
    pure .unset

def block : List Stmt → Evaluation Unit
  | [] => pure ()
  | s :: rest => do
    let _ ← stmt s
    block rest

end

/-- The value of the last statement. -/
def statements : List Stmt → Evaluation Value
  | [] => pure .unset
  | [s] => stmt functions limit passes s
  | s :: rest => do
    let _ ← stmt functions limit passes s
    statements rest

end
end Direct

/-- Evaluates a script in a world; no variable is set at first. -/
def Script.evaluate (s : Script) (functions : FunctionRegistry) (limit : Option Nat)
    (passes : Nat) (w : World) : EStateM.Result Direct.Stop Direct.Environment Value :=
  Direct.statements functions limit passes s.statements ⟨fun _ => .unset, w⟩

/-- The script has a value, and leaves a world. -/
def Script.Evaluates (s : Script) (functions : FunctionRegistry) (limit : Option Nat) (w : World)
    (v : Value) (w' : World) : Prop :=
  ∃ passes env, s.evaluate functions limit passes w = .ok v env ∧ env.world = w'

/-- The script fails, and leaves a world. -/
def Script.FailsWith (s : Script) (functions : FunctionRegistry) (limit : Option Nat) (w : World)
    (e : RuntimeError) (w' : World) : Prop :=
  ∃ passes env, s.evaluate functions limit passes w = .error (.fault e) env ∧ env.world = w'

end ScriptEngine
