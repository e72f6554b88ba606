/-
Why a script does not compile.
-/
import ScriptEngine.Location
import ScriptEngine.Mangle

namespace ScriptEngine

/-- A reference of a script that cannot be resolved. -/
inductive CompilationError where
  | unknownFunction (name : String) (argc : Nat) (location : Location)
  | unknownConstructor (className : String) (argc : Nat) (location : Location)
  | unknownMethod (method : String) (argc : Nat) (location : Location)
  | undeclaredVariable (name : String) (location : Location)
  | invalidName (cause : MangleError) (location : Location)
  deriving DecidableEq, Repr

namespace CompilationError

def name : CompilationError → String
  | unknownFunction .. => "UnknownFunction"
  | unknownConstructor .. => "UnknownConstructor"
  | unknownMethod .. => "UnknownMethod"
  | undeclaredVariable .. => "UndeclaredVariable"
  | invalidName .. => "InvalidName"

def location : CompilationError → Location
  | unknownFunction _ _ l => l
  | unknownConstructor _ _ l => l
  | unknownMethod _ _ l => l
  | undeclaredVariable _ l => l
  | invalidName _ l => l

def reason : CompilationError → String
  | unknownFunction name argc _ =>
    "unknown function '" ++ name ++ "' taking " ++ toString argc ++ " argument(s)"
  | unknownConstructor className argc _ =>
    "unknown constructor '" ++ className ++ "' taking " ++ toString argc ++ " argument(s)"
  | unknownMethod method argc _ =>
    "no class has a method '" ++ method ++ "' taking " ++ toString argc ++ " argument(s)"
  | undeclaredVariable name _ => "variable '" ++ name ++ "' is used before it is assigned"
  | invalidName cause _ => cause.message

def message (e : CompilationError) : String := "at " ++ e.location.text ++ ": " ++ e.reason

end CompilationError
end ScriptEngine
