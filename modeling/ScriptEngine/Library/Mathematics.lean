/-
The mathematical functions.  All take and give numbers.
-/
import ScriptEngine.Registry.Functions

namespace ScriptEngine
namespace Library

/-- The lesser of two numbers.  What is no number is passed over. -/
def lesser (a b : Float) : Float :=
  if a.isNaN then b else if b.isNaN then a else if b < a then b else a

/-- The greater of two numbers.  What is no number is passed over. -/
def greater (a b : Float) : Float :=
  if a.isNaN then b else if b.isNaN then a else if a < b then b else a

def pi : Float := 3.141592653589793

def constant (name : String) (x : Float) : Registration :=
  .function name (.typed [] .number (pure x))

def unary (name : String) (f : Float → Float) : Registration :=
  .function name (.typed [.number] .number fun x => pure (f x))

def binary (name : String) (f : Float → Float → Float) : Registration :=
  .function name (.typed [.number, .number] .number fun x y => pure (f x y))

/-- The mathematical functions.  Rounding takes a half away from zero. -/
def mathematics : List Registration :=
  [constant "pi" pi, unary "sqrt" Float.sqrt, unary "abs" Float.abs, unary "sin" Float.sin,
   unary "cos" Float.cos, unary "tan" Float.tan, binary "pow" Float.pow, binary "min" lesser,
   binary "max" greater, unary "floor" Float.floor, unary "ceil" Float.ceil,
   unary "round" Float.round]

end Library
end ScriptEngine
