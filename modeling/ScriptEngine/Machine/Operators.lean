/-
What the operators mean.

Arithmetic takes numbers; a sum with a string on either side joins texts.  Any
two values can be compared for equality, and values of different types differ.
The relations order numbers and strings and are false of everything else.  The
logical operators take truth values.
-/
import ScriptEngine.Bytecode.Instruction
import ScriptEngine.Machine.Error
import ScriptEngine.Store

namespace ScriptEngine

namespace Value

/-- The fault of an operator on two values that it does not take. -/
def mismatch (op : BinaryOp) (left right : Value) : RuntimeFault :=
  .typeMismatch op.text left.typeName right.typeName

/-- A relation between values that have an order. -/
def related (left right : Value) (holds : Ordering → Bool) : Value :=
  .bool (match left.order? right with
    | some o => holds o
    | none => false)

/-- The sum of two values.  The store gives objects their texts. -/
def add (s : Store) : Value → Value → Except RuntimeFault Value
  | number a, number b => .ok (.number (a + b))
  | string a, right => .ok (.string (a ++ s.display right))
  | left, string b => .ok (.string (s.display left ++ b))
  | left, right => .error (mismatch .add left right)

def arithmetic (op : BinaryOp) (f : Float → Float → Float) :
    Value → Value → Except RuntimeFault Value
  | number a, number b => .ok (.number (f a b))
  | left, right => .error (mismatch op left right)

def logical (op : BinaryOp) (f : Bool → Bool → Bool) : Value → Value → Except RuntimeFault Value
  | bool a, bool b => .ok (.bool (f a b))
  | left, right => .error (mismatch op left right)

def binary (s : Store) (op : BinaryOp) (left right : Value) : Except RuntimeFault Value :=
  match op with
  | .or => logical op (· || ·) left right
  | .and => logical op (· && ·) left right
  | .equal => .ok (.bool (left.equal right))
  | .notEqual => .ok (.bool (!left.equal right))
  | .less => .ok (related left right (· == .lt))
  | .greater => .ok (related left right (· == .gt))
  | .lessEqual => .ok (related left right (· != .gt))
  | .greaterEqual => .ok (related left right (· != .lt))
  | .add => add s left right
  | .sub => arithmetic op (· - ·) left right
  | .mul => arithmetic op (· * ·) left right
  | .div => arithmetic op (· / ·) left right

/-- Applies the operator that an instruction is.  Other instructions have no meaning between two
values. -/
def operate (s : Store) (i : Instruction) (left right : Value) : Except RuntimeFault Value :=
  match i with
  | .binary op => binary s op left right
  | i => .error (.invalidInstruction i.mnemonic)

def unary : UnaryOp → Value → Except RuntimeFault Value
  | .neg, number x => .ok (.number (-x))
  | .not, bool b => .ok (.bool (!b))
  | op, v => .error (.unaryTypeMismatch op.text v.typeName)

def condition : Value → Except RuntimeFault Bool
  | bool b => .ok b
  | v => .error (.conditionNotBool v.typeName)

end Value
end ScriptEngine
