/-
The constants of a program.

The pool holds each constant once.  Two numbers are one constant when they are
equal as numbers, and everything that is no number is one constant.
-/
import ScriptEngine.Text.Quoted
import ScriptEngine.Value

namespace ScriptEngine

/-- A literal value of a program. -/
inductive Constant where
  | number (value : Float)
  | bool (value : Bool)
  | string (value : String)
  deriving Repr

namespace Constant

def toValue : Constant → Value
  | number x => .number x
  | bool b => .bool b
  | string s => .string s

def text : Constant → String
  | number x => Decimal.text x
  | bool b => if b then "true" else "false"
  | string s => Text.quote s

/-- Whether the pool holds two constants as one. -/
def same : Constant → Constant → Bool
  | number a, number b => a == b || (a.isNaN && b.isNaN)
  | bool a, bool b => a == b
  | string a, string b => a == b
  | _, _ => false

end Constant

/-- The constants of a program in the order of their first use. -/
structure ConstantPool where
  constants : Array Constant

namespace ConstantPool

def empty : ConstantPool := ⟨#[]⟩

instance : Inhabited ConstantPool := ⟨empty⟩

def size (p : ConstantPool) : Nat := p.constants.size

def get? (p : ConstantPool) (index : Nat) : Option Constant := p.constants[index]?

/-- The index of a constant, which is added if it is new. -/
def add (p : ConstantPool) (c : Constant) : Nat × ConstantPool :=
  match p.constants.findIdx? (·.same c) with
  | some index => (index, p)
  | none => (p.size, ⟨p.constants.push c⟩)

end ConstantPool
end ScriptEngine
