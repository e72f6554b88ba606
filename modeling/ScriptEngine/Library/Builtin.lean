/-
The library that every engine starts with: the output functions, the
mathematical functions, and the classes of measurements and of colors.
-/
import ScriptEngine.Library.Color
import ScriptEngine.Library.Mathematics
import ScriptEngine.Library.Measurement
import ScriptEngine.Library.Output

namespace ScriptEngine
namespace Registry

/-- Registers functions in order and stops at the first refusal. -/
def addAll : List Registration → Registry → Except RegistrationError Unit × Registry
  | [], r => (.ok (), r)
  | item :: rest, r =>
    match r.add item with
    | (.ok _, r) => addAll rest r
    | (.error e, r) => (.error e, r)

/-- Adds classes in order and stops at the first refusal. -/
def addClasses : List ClassDeclaration → Registry → Except RegistrationError Unit × Registry
  | [], r => (.ok (), r)
  | c :: rest, r =>
    match r.addClass c with
    | (.ok _, r) => addClasses rest r
    | (.error e, r) => (.error e, r)

def install (r : Registry) : Except RegistrationError Unit × Registry :=
  match r.addAll (Library.output ++ Library.mathematics) with
  | (.ok (), r) => r.addClasses [Measurement.declaration, Color.declaration]
  | (.error e, r) => (.error e, r)

end Registry
end ScriptEngine
