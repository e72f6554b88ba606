/-
Why a program fails when it runs.
-/
import ScriptEngine.Native.Error
import ScriptEngine.Stack
import ScriptEngine.Word

namespace ScriptEngine

/-- The causes of a runtime error. -/
inductive RuntimeFault where
  | stackOverflow (capacity : Nat)
  | stackUnderflow
  | unsetVariable (name : String)
  | invalidSlot (slot : Nat)
  | invalidConstant (index : Nat)
  | invalidJump (target size : Nat)
  | invalidMethodIndex (index : Nat)
  | invalidInstruction (name : String)
  | invalidFunctionHandle (handle : Nat)
  | typeMismatch (operation left right : String)
  | unaryTypeMismatch (operation operand : String)
  | conditionNotBool (actual : String)
  | notAnObject (method actual : String)
  | noSuchMethod (className method : String) (argc : Nat)
  | wrongReceiver (method expected actual : String)
  | native (function : String) (cause : NativeError)
  /-- The arguments of a method call together with the receiver are more than a machine word can
  count.  This is no error that a script gets to see: the run breaks off, and only the message about
  the addition is left. -/
  | countOverflow
  deriving Repr

namespace RuntimeFault

def name : RuntimeFault → String
  | stackOverflow _ => "StackOverflow"
  | stackUnderflow => "StackUnderflow"
  | unsetVariable _ => "UnsetVariable"
  | invalidSlot _ => "InvalidSlot"
  | invalidConstant _ => "InvalidConstant"
  | invalidJump .. => "InvalidJump"
  | invalidMethodIndex _ => "InvalidMethodIndex"
  | invalidInstruction _ => "InvalidInstruction"
  | invalidFunctionHandle _ => "InvalidFunctionHandle"
  | typeMismatch .. => "TypeMismatch"
  | unaryTypeMismatch .. => "UnaryTypeMismatch"
  | conditionNotBool _ => "ConditionNotBool"
  | notAnObject .. => "NotAnObject"
  | noSuchMethod .. => "NoSuchMethod"
  | wrongReceiver .. => "WrongReceiver"
  | native _ cause => "Native/" ++ cause.name
  | countOverflow => "Panic"

def message : RuntimeFault → String
  | stackOverflow capacity => "operand stack overflow (capacity " ++ toString capacity ++ ")"
  | stackUnderflow => "operand stack underflow"
  | unsetVariable name => "variable '" ++ name ++ "' is not set"
  | invalidSlot slot => "invalid variable slot " ++ toString slot
  | invalidConstant index => "invalid constant index " ++ toString index
  | invalidJump target size =>
    "jump target " ++ toString target ++ " is outside the program (length " ++ toString size ++ ")"
  | invalidMethodIndex index => "invalid method index " ++ toString index
  | invalidInstruction name => "instruction " ++ name ++ " is not valid here"
  | invalidFunctionHandle handle => "invalid function handle " ++ toString handle
  | typeMismatch operation left right =>
    "cannot apply '" ++ operation ++ "' to " ++ left ++ " and " ++ right
  | unaryTypeMismatch operation operand =>
    "cannot apply '" ++ operation ++ "' to " ++ operand
  | conditionNotBool actual => "condition must be a bool, found " ++ actual
  | notAnObject method actual => "cannot call method '" ++ method ++ "' on " ++ actual
  | noSuchMethod className method argc =>
    "class '" ++ className ++ "' has no method '" ++ method ++ "' taking " ++ toString argc ++
      " argument(s)"
  | wrongReceiver method expected actual =>
    "method '" ++ method ++ "' expects an instance of '" ++ expected ++
      "', found instance of '" ++ actual ++ "'"
  | native function cause => "in '" ++ function ++ "': " ++ cause.message
  | countOverflow => CountOverflow.receiver.message

def ofStack : StackError → RuntimeFault
  | .overflow capacity => stackOverflow capacity
  | .underflow | .outOfRange .. => stackUnderflow

end RuntimeFault

structure RuntimeError where
  fault : RuntimeFault
  line : Nat
  deriving Repr

def RuntimeError.message (e : RuntimeError) : String :=
  "runtime error at line " ++ toString e.line ++ ": " ++ e.fault.message

end ScriptEngine
