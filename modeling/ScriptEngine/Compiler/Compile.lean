/-
From syntax to bytecode.

The compiler walks over a script once, in the order of its text.  Every
expression leaves one value on the stack, and every statement leaves the stack
as it was, except that the value of a last expression stays as the result.  A
reference is checked before what it is applied to is compiled, so the first
reference in the text that cannot be resolved decides the error.
-/
import ScriptEngine.Bytecode.Emitter
import ScriptEngine.Compiler.Error
import ScriptEngine.Compiler.Symbols
import ScriptEngine.Registry.Members

namespace ScriptEngine

/-- What the compiler looks references up in, and whether a variable may be read before the text
assigns it. -/
structure CompilerInput where
  functions : FunctionRegistry
  strict : Bool

/-- The state of the compiler: the program so far, its variables, and its method tables. -/
structure Compiler where
  emitter : Emitter
  symbols : Symbols
  methods : Array MethodTable

abbrev Compile (α : Type) := StateT Compiler (Except CompilationError) α

namespace Compiler

def start : Compiler := ⟨.new, .empty, #[]⟩

def emitting (f : Emitter → Emitter) : Compile Unit :=
  modify fun c => { c with emitter := f c.emitter }

def emitAt (line : Nat) (i : Instruction) : Compile Unit :=
  emitting fun e => (e.setLine line).emit i

def constantAt (line : Nat) (k : Constant) : Compile Unit :=
  emitting fun e => (e.setLine line).constant k

def forward (conditional : Bool) : Compile Label := modifyGet fun c =>
  let (label, e) := c.emitter.jump conditional
  (label, { c with emitter := e })

def land (label : Label) : Compile Unit := emitting fun e => e.patch label

def declare (name : String) : Compile Nat := modifyGet fun c =>
  let (slot, symbols) := c.symbols.declare name
  (slot, { c with symbols := symbols })

/-- The function that a call reaches. -/
def resolve (input : CompilerInput) (name : String) (argc : Nat) (location : Location)
    (unknown : CompilationError) : Compile Nat :=
  match input.functions.resolve name argc with
  | .error e => throw (.invalidName e location)
  | .ok none => throw unknown
  | .ok (some handle) => pure handle

/-- Some class has to implement a method that is called. -/
def checkMethod (input : CompilerInput) (method : String) (argc : Nat) (location : Location) :
    Compile Unit :=
  if input.functions.hasMethod method argc then pure ()
  else throw (.unknownMethod method argc location)

def tableOf (functions : FunctionRegistry) (method : String) (argc : Nat) : MethodTable :=
  (functions.implementations method argc).foldl (fun t (className, handle) =>
    t.insert className handle) (.new method argc)

/-- The index of the table of a method, which is added at its first call. -/
def methodIndex (input : CompilerInput) (method : String) (argc : Nat) : Compile Nat :=
  modifyGet fun c =>
    match c.methods.findIdx? fun t => t.name = method ∧ t.argc = argc with
    | some index => (index, c)
    | none =>
      (c.methods.size, { c with methods := c.methods.push (tableOf input.functions method argc) })

def emitMethod (input : CompilerInput) (method : String) (argc line : Nat) : Compile Unit := do
  let index ← methodIndex input method argc
  emitAt line (.callMethod index argc)

/-- Compiles a read of a variable.  A variable that no statement before has assigned gets its slot
here, unless that is refused. -/
def readVariable (input : CompilerInput) (name : Ident) : Compile Unit := do
  let slot ← match (← get).symbols.lookup? name.name with
    | some slot => pure slot
    | none =>
      if input.strict then throw (.undeclaredVariable name.name name.location)
      else declare name.name
  emitAt name.location.line (.load slot)

mutual

def expr (input : CompilerInput) : Expr → Compile Unit
  | .number l x => constantAt l.line (.number x)
  | .bool l b => constantAt l.line (.bool b)
  | .string l s => constantAt l.line (.string s)
  | .variable name => readVariable input name
  | .binary op left right => do
    expr input left
    expr input right
    emitAt left.location.line (.binary op)
  | .unary l op operand => do
    expr input operand
    emitAt l.line (.unary op)
  | .member object name => do
    checkMethod input name.name 0 name.location
    expr input object
    emitMethod input name.name 0 object.location.line
  | .method object name args => do
    checkMethod input name.name args.length name.location
    expr input object
    exprs input args
    emitMethod input name.name args.length object.location.line
  | .call callee args => do
    let handle ← resolve input callee.name args.length callee.location
      (.unknownFunction callee.name args.length callee.location)
    exprs input args
    emitAt callee.location.line (.call handle args.length)
  | .construct callee args => do
    let handle ← resolve input (Members.constructorName callee.name) args.length callee.location
      (.unknownConstructor callee.name args.length callee.location)
    exprs input args
    emitAt callee.location.line (.call handle args.length)

/-- Compiles expressions from the left to the right. -/
def exprs (input : CompilerInput) : List Expr → Compile Unit
  | [] => pure ()
  | e :: rest => do
    expr input e
    exprs input rest

end

mutual

/-- Compiles a statement.  The value of an expression stays on the stack if the statement is the
last one of the script. -/
def stmt (input : CompilerInput) (isLast : Bool) : Stmt → Compile Unit
  | .assign target value => do
    expr input value
    let slot ← declare target.name
    emitAt target.location.line (.store slot)
  | .branch l condition thenBody elseBody => do
    expr input condition
    emitting (·.setLine l.line)
    let toElse ← forward true
    block input thenBody
    match elseBody with
    | none => land toElse
    | some body => do
      let toEnd ← forward false
      land toElse
      block input body
      land toEnd
  | .loop l condition body => do
    let start := (← get).emitter.offset
    expr input condition
    emitting (·.setLine l.line)
    let toEnd ← forward true
    block input body
    emitting fun e => (e.setLine l.line).loop start
    land toEnd
  | .expr e => do
    expr input e
    if isLast then pure () else emitting (·.emit .pop)
  | .setMember object name value => do
    let setter := Members.setterName name.name
    checkMethod input setter 1 name.location
    expr input object
    expr input value
    emitMethod input setter 1 object.location.line
    if isLast then pure () else emitting (·.emit .pop)
  | .print l newline args => do
    let name := printFunction newline
    let handle ← resolve input name args.length l (.unknownFunction name args.length l)
    exprs input args
    emitting fun e => ((e.setLine l.line).emit (.call handle args.length)).emit .pop

def block (input : CompilerInput) : List Stmt → Compile Unit
  | [] => pure ()
  | s :: rest => do
    stmt input false s
    block input rest

end

def statements (input : CompilerInput) : List Stmt → Compile Unit
  | [] => pure ()
  | s :: rest => do
    stmt input rest.isEmpty s
    statements input rest

def finish (c : Compiler) : Program := c.emitter.finish c.symbols.names c.methods

end Compiler

def Script.compile (input : CompilerInput) (s : Script) : Except CompilationError Program :=
  match Compiler.statements input s.statements Compiler.start with
  | .ok ((), c) => .ok c.finish
  | .error e => .error e

end ScriptEngine
