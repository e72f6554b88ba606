/-
Native functions.

A native function is an action that depends on its arguments, under a declared
arity and a signature.  `NativeFunction.typed` makes one from a function of the
host: it converts the arguments from the left and runs the function when all of
them fit.
-/
import ScriptEngine.Mangle
import ScriptEngine.Native.Action
import ScriptEngine.Native.Types

namespace ScriptEngine

/-- A native function: how many arguments it takes, its signature, and what it does. -/
structure NativeFunction where
  arity : Arity
  signature : String
  body : List Value → Action Value

/-- Reads the argument at an index as a parameter of the type. -/
def argument (t : NativeType) (args : List Value) (index : Nat) : Except NativeError t.Carrier :=
  match args[index]? with
  | none => .error (.argumentCount (index + 1) args.length)
  | some v =>
    match t.read v with
    | .ok a => .ok a
    | .error e => .error (.argument index e)

namespace Action

/-- Runs a function of the host on the arguments from an index on, once all of them fit. -/
def apply {ρ : Type} (args : List Value) :
    (index : Nat) → (params : List NativeType) → Curried (Action ρ) params → Action ρ
  | _, [], run => run
  | index, t :: ts, f =>
    match argument t args index with
    | .ok a => apply args (index + 1) ts (f a)
    | .error e => fail e

end Action

namespace NativeFunction

/-- The written signature of a function type. -/
def signatureOf (params : List NativeType) (result : NativeType) : String :=
  "(" ++ ", ".intercalate (params.map NativeType.parameterName) ++ ") -> " ++ result.resultName

/-- The native function for a function of the host. -/
def typed (params : List NativeType) (result : NativeType)
    (f : Curried (Action result.Carrier) params) : NativeFunction where
  arity := .fixed params.length
  signature := signatureOf params result
  body := fun args => do
    let r ← Action.apply args 0 params f
    pure (result.write r)

/-- A native function of any number of arguments. -/
def variadic (body : List Value → Action Value) : NativeFunction where
  arity := .variadic
  signature := "(...) -> any"
  body := body

/-- Calls a function.  A wrong number of arguments is refused before the function runs. -/
def call (f : NativeFunction) (args : List Value) : Action Value :=
  match f.arity with
  | .fixed n => if n = args.length then f.body args else .fail (.argumentCount n args.length)
  | .variadic => f.body args

def describe (f : NativeFunction) : String :=
  "NativeFunction \x7b arity: " ++ f.arity.describe ++ ", signature: " ++
    Text.quote f.signature ++ ", .. \x7d"

end NativeFunction
end ScriptEngine
