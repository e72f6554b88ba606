/-
The output functions.

Both take a format string and its arguments and write the formatted text; one
writes a newline after it, as a text of its own.
-/
import ScriptEngine.Library.Format
import ScriptEngine.Registry.Functions

namespace ScriptEngine
namespace Library

/-- The text that a format string and its arguments stand for. -/
def formatted (args : List Value) : Action String := do
  let template ← Action.ofExcept (argument .string args 0)
  let texts ← args.tail.mapM Action.display
  match Format.format template texts with
  | .ok text => pure text
  | .error e => .fail (.format e)

/-- Writes a formatted text. -/
def print (args : List Value) : Action Value := do
  let text ← formatted args
  Action.write text
  pure .unset

/-- Writes a formatted text and a newline. -/
def println (args : List Value) : Action Value := do
  let text ← formatted args
  Action.write text
  Action.write "\n"
  pure .unset

def output : List Registration := [.variadic "print" print, .variadic "println" println]

end Library
end ScriptEngine
