/-
The types of native functions.

A native type has a carrier, the values of the host that it stands for.  Reading
takes a script value to the carrier or says why it does not fit; writing takes
the carrier back.  A function type is a list of parameter types with a result
type, and its carrier is a curried function.
-/
import ScriptEngine.Integer
import ScriptEngine.Value
import ScriptEngine.Native.Error

namespace ScriptEngine

/-- The types of parameters and results. -/
inductive NativeType where
  | number
  /-- A number of single precision. -/
  | single
  /-- A whole number of an integer type. -/
  | integer (type : IntegerType)
  | bool
  | string
  | unset
  | any
  | object
  /-- An object of the class. -/
  | instanceOf (className : String)
  deriving DecidableEq, Repr

namespace NativeType

/-- The values of the host that a type stands for. -/
@[reducible] def Carrier : NativeType → Type
  | number => Float
  | single => Float32
  | integer _ => Int
  | bool => Bool
  | string => String
  | unset => Unit
  | any => Value
  | object => ObjectRef
  | instanceOf _ => ObjectRef

def parameterName : NativeType → String
  | number | single => "number"
  | integer _ => "integer"
  | bool => "bool"
  | string => "string"
  | unset => "unset"
  | any => "any"
  | object => "object"
  | instanceOf className => className

/-- The name of a type as a result.  A whole number comes back as a number. -/
def resultName : NativeType → String
  | integer _ => "number"
  | t => t.parameterName

/-- The error of a value of another kind. -/
def mismatch (t : NativeType) (v : Value) : ConversionError :=
  .typeMismatch t.parameterName v.typeName

/-- Reads a value as a parameter of the type. -/
def read : (t : NativeType) → Value → Except ConversionError t.Carrier
  | number, .number x => .ok x
  | single, .number x => .ok x.toFloat32
  | integer type, .number x =>
    match type.ofFloat? x with
    | some n => .ok n
    | none => .error (.notAnInteger x)
  | bool, .bool b => .ok b
  | string, .string s => .ok s
  | unset, .unset => .ok ()
  | any, v => .ok v
  | object, .object ref => .ok ref
  | instanceOf className, .object ref =>
    if ref.className = className then .ok ref else .error (.classMismatch className ref.className)
  | t, v => .error (t.mismatch v)

/-- Writes a result of the type as a value. -/
def write : (t : NativeType) → t.Carrier → Value
  | number, x => .number x
  | single, x => .number x.toFloat
  | integer _, n => .number (Float.ofInt n)
  | bool, b => .bool b
  | string, s => .string s
  | unset, _ => .unset
  | any, v => v
  | object, ref => .object ref
  | instanceOf _, ref => .object ref

end NativeType

/-- The type of the functions that take the given parameters one after the other. -/
@[reducible] def Curried (ρ : Type) : List NativeType → Type
  | [] => ρ
  | t :: ts => t.Carrier → Curried ρ ts

end ScriptEngine
