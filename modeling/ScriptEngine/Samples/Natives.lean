/-
Sample functions: one for every type of parameter and result, and functions of
any number of arguments that read them one by one.
-/
import ScriptEngine.Registry.Members
import ScriptEngine.Samples.Counter
import ScriptEngine.Samples.Lamp

namespace ScriptEngine
namespace Samples

open NativeFunction (typed variadic)

/-- The integers that count things. -/
def size : NativeType := .integer ⟨false, 64⟩

/-- The function that gives back its argument through a type. -/
def through (t : NativeType) : NativeFunction := typed [t] t fun x => pure x

/-- The texts of values, joined by a mark. -/
def joined (values : List Value) : Action String := do
  pure ("|".intercalate (← values.mapM Action.display))

/-- Five parameters of different types. -/
def mix : NativeFunction :=
  typed [.number, .bool, .string, .any, .integer .word32] .string fun x b s v n =>
    joined [.number x, .bool b, .string s, v, NativeType.write (.integer .word32) n]

/-- Writes each argument in angle brackets and a point after all. -/
def join : NativeFunction :=
  variadic fun args => do
    for v in args do
      Action.write ("<" ++ (← Action.display v) ++ ">")
    Action.write "."
    pure .unset

/-- The argument at the place that the first argument tells. -/
def pick : NativeFunction :=
  variadic fun args => do
    let i ← Action.ofExcept (argument size args 0)
    Action.ofExcept (argument .any args i.toNat)

/-- A function of two arguments that reads a third. -/
def greedy : NativeFunction where
  arity := .fixed 2
  signature := "(greedy)"
  body := fun args => Action.ofExcept (argument .any args 2)

/-- The sample functions with their names. -/
def natives : List (String × NativeFunction) :=
  [("zero", typed [] .number (pure 0)),
   ("label", typed [] .string (pure "label")),
   ("neg", typed [.number] .number fun x => pure (-x)),
   ("add", typed [.number, .number] .number fun x y => pure (x + y)),
   ("sum3", typed [.number, .number, .number] .number fun x y z => pure (x + y + z)),
   ("sum4", typed [.number, .number, .number, .number] .number fun x y z w => pure (x + y + z + w)),
   ("mix5", mix),
   ("flip", typed [.bool] .bool fun b => pure !b),
   ("concat", typed [.string, .string] .string fun a b => pure (a ++ b)),
   ("repeat", typed [.string, size] .string fun s n =>
     pure (String.join (List.replicate (Int.toNat n) s))),
   ("echo", through .any),
   ("ignore", typed [.any] .unset fun _ => pure ()),
   ("fail", typed [.string] .unset fun message => .fail (.failed message)),
   ("object", through .object),
   ("class_name", typed [.object] .string fun ref => pure ref.className),
   ("same", typed [.object, .object] .bool fun a b => pure (a.cell == b.cell)),
   ("color", through (Members.self Color)),
   ("bool", through .bool),
   ("string", through .string),
   ("count", variadic fun args => pure (.number (Float.ofNat args.length))),
   ("join", join),
   ("pick", pick),
   ("greedy", greedy)]

end Samples
end ScriptEngine
