/-
The stack machine.

A machine is the state of a run: the operands, the variables, the place in the
program, and the world that native functions act on.  One step executes one
instruction.  A run is finished when the place is behind the last instruction;
its result is the value on top of the stack.
-/
import ScriptEngine.Bytecode.Program
import ScriptEngine.Machine.Operators

namespace ScriptEngine

def operandCapacity : Nat := 256

structure Machine where
  stack : Stack Value operandCapacity
  slots : Array Value
  pc : Nat
  world : World

/-- What happens in one step: it changes the machine, and may fail.  What a native function did to
the world before it failed stays done. -/
abbrev Operation (α : Type) := EStateM RuntimeFault Machine α

namespace Machine

/-- The machine before the first instruction of a program: no variable is set. -/
def start (p : Program) (w : World) : Machine :=
  ⟨.empty, Array.replicate p.slotNames.size .unset, 0, w⟩

def push (v : Value) : Operation Unit := fun m =>
  match m.stack.push v with
  | .ok stack => .ok () { m with stack := stack }
  | .error e => .error (.ofStack e) m

def pop : Operation Value := fun m =>
  match m.stack.pop with
  | .ok (v, stack) => .ok v { m with stack := stack }
  | .error e => .error (.ofStack e) m

/-- Takes values off the stack, from the bottom up. -/
def popMany (count : Nat) : Operation (List Value) := fun m =>
  match m.stack.popMany count with
  | .ok (vs, stack) => .ok vs { m with stack := stack }
  | .error e => .error (.ofStack e) m

/-- The value that is there, or the fault of its absence. -/
def require {α : Type} (a : Option α) (fault : RuntimeFault) : Operation α :=
  match a with
  | some a => pure a
  | none => throw fault

/-- Goes on with the value of a computation, or fails as it does. -/
def lift {α : Type} : Except RuntimeFault α → Operation α
  | .ok a => pure a
  | .error e => throw e

/-- The value of a variable, which has to be set. -/
def load (p : Program) (slot : Nat) : Operation Value := do
  match ← require (← get).slots[slot]? (.invalidSlot slot) with
  | .unset => throw (.unsetVariable ((p.slotName? slot).getD "?"))
  | v => pure v

def store (slot : Nat) (v : Value) : Operation Unit := do
  if slot < (← get).slots.size then
    modify fun m => { m with slots := m.slots.setIfInBounds slot v }
  else throw (.invalidSlot slot)

/-- Goes on at a target.  The end of the program is a target too. -/
def jump (p : Program) (target : Nat) : Operation Unit :=
  if target ≤ p.size then modify fun m => { m with pc := target }
  else throw (.invalidJump target p.size)

def callFunction (functions : FunctionRegistry) (handle : Nat) (args : List Value) :
    Operation Value := fun ⟨stack, slots, pc, world⟩ =>
  match functions.entry? handle with
  | none => .error (.invalidFunctionHandle handle) ⟨stack, slots, pc, world⟩
  | some entry =>
    match (entry.function.call args).run world with
    | .ok v changed => .ok v ⟨stack, slots, pc, changed⟩
    | .error e changed => .error (.native entry.name e) ⟨stack, slots, pc, changed⟩

/-- The function that a method table has for a receiver.  The receiver is counted among the values
of a call, so there always is one. -/
def dispatch (table : MethodTable) (argc : Nat) : List Value → Except RuntimeFault Nat
  | .object ref :: _ =>
    match table.handleFor? ref.className with
    | some handle => .ok handle
    | none =>
      match table.soleClass? with
      | some expected => .error (.wrongReceiver table.name expected ref.className)
      | none => .error (.noSuchMethod ref.className table.name argc)
  | v :: _ => .error (.notAnObject table.name v.typeName)
  | [] => .error .countOverflow

/-- Calls a method on the receiver below the arguments.  They are counted before the stack is looked
at. -/
def callMethod (p : Program) (functions : FunctionRegistry) (method argc : Nat) :
    Operation Value := do
  let table ← require p.methods[method]? (.invalidMethodIndex method)
  if wordLimit ≤ argc + 1 then throw .countOverflow
  let args ← popMany (argc + 1)
  let handle ← lift (dispatch table argc args)
  callFunction functions handle args

/-- Executes an instruction.  The place is already behind it. -/
def execute (p : Program) (functions : FunctionRegistry) : Instruction → Operation Unit
  | .constant index => do
    let c ← require (p.constants.get? index) (.invalidConstant index)
    push c.toValue
  | .load slot => do
    push (← load p slot)
  | .store slot => do
    store slot (← pop)
  | .pop => do
    let _ ← pop
  | .unary op => do
    push (← lift (Value.unary op (← pop)))
  | .binary op => do
    let right ← pop
    let left ← pop
    push (← lift (Value.operate (← get).world.store (.binary op) left right))
  | .jump target => jump p target
  | .jumpIfFalse target => do
    let v ← pop
    if ← lift v.condition then pure () else jump p target
  | .call handle argc => do
    let args ← popMany argc
    push (← callFunction functions handle args)
  | .callMethod method argc => do
    push (← callMethod p functions method argc)

/-- Where a run stands after some steps. -/
inductive Outcome where
  /-- The run is over, with its result. -/
  | finished (result : Value) (world : World)
  /-- An instruction failed. -/
  | failed (error : RuntimeError) (world : World)
  /-- The run goes on from this machine. -/
  | running (machine : Machine)

def result (m : Machine) : Value :=
  match m.stack.top with
  | .ok v => v
  | .error _ => .unset

/-- Runs a machine for at most the given number of steps. -/
def run (p : Program) (functions : FunctionRegistry) : Nat → Machine → Outcome
  | steps, m =>
    match p.code[m.pc]? with
    | none => .finished m.result m.world
    | some i =>
      match steps with
      | 0 => .running m
      | steps + 1 =>
        match execute p functions i { m with pc := m.pc + 1 } with
        | .ok () next => run p functions steps next
        | .error fault next => .failed ⟨fault, p.lineAt m.pc⟩ next.world

end Machine
end ScriptEngine
