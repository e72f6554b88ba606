/-
The values that scripts compute with.

Numbers, truth values and strings are plain values.  An object is a reference:
it names a cell of the heap and the class of what lives there.  `unset` is what
a variable holds before its first assignment.
-/
import ScriptEngine.Decimal.Shortest

namespace ScriptEngine

/-- A reference to an object: its cell and the name of its class. -/
structure ObjectRef where
  cell : Nat
  className : String
  deriving DecidableEq, Repr

inductive Value where
  | unset
  | number (value : Float)
  | bool (value : Bool)
  | string (value : String)
  | object (ref : ObjectRef)
  deriving Repr

instance : Inhabited Value := ⟨.unset⟩

namespace Value

/-- The name of the type of a value, which for an object is its class. -/
def typeName : Value → String
  | unset => "unset"
  | number _ => "number"
  | bool _ => "bool"
  | string _ => "string"
  | object ref => ref.className

/-- Whether two values are equal for a script.  Values of different types never are, and objects
are equal when they are the same object. -/
def equal : Value → Value → Bool
  | unset, unset => true
  | number a, number b => a == b
  | bool a, bool b => a == b
  | string a, string b => a == b
  | object a, object b => a.cell == b.cell
  | _, _ => false

/-- The order of two values for a script.  Only two numbers or two strings have one, and a number
that is none has none with any other. -/
def order? : Value → Value → Option Ordering
  | number a, number b =>
    if a < b then some .lt else if a == b then some .eq else if b < a then some .gt else none
  | string a, string b => some (if a < b then .lt else if a = b then .eq else .gt)
  | _, _ => none

def asNumber? : Value → Option Float
  | number x => some x
  | _ => none

def asBool? : Value → Option Bool
  | bool b => some b
  | _ => none

def asString? : Value → Option String
  | string s => some s
  | _ => none

def asObject? : Value → Option ObjectRef
  | object ref => some ref
  | _ => none

def isUnset : Value → Bool
  | unset => true
  | _ => false

end Value
end ScriptEngine
