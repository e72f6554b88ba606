/-
The registered classes.

A class comes with a setup that registers its functions.  A setup may make any
requests one after the other, look at each answer, and end well or with an
error.  Adding a class is all or nothing: when its setup fails, the functions
that it has registered are taken back.
-/
import ScriptEngine.Registry.Functions

namespace ScriptEngine

/-- What a class does to register its functions. -/
inductive Setup where
  | done (outcome : Except RegistrationError Unit)
  /-- One more request; the rest of the setup may depend on its answer. -/
  | request (request : Registration) (next : Except RegistrationError Nat → Setup)

namespace Setup

def run : Setup → FunctionRegistry → Except RegistrationError Unit × FunctionRegistry
  | done outcome, r => (outcome, r)
  | request item next, r =>
    match r.add item with
    | .ok (handle, extended) => (next (.ok handle)).run extended
    | .error e => (next (.error e)).run r

/-- The setup that makes the given requests in order and ends at the first refusal. -/
def ofList : List Registration → Setup
  | [] => done (.ok ())
  | item :: rest =>
    request item fun
      | .ok _ => ofList rest
      | .error e => done (.error e)

end Setup

/-- A class as it is registered: its name and its setup. -/
structure ClassDeclaration where
  name : String
  setup : Setup

/-- The functions and the classes of an engine.  The classes are listed in the order of their
registration. -/
structure Registry where
  functions : FunctionRegistry
  classes : List String

namespace Registry

def empty : Registry := ⟨.empty, []⟩

instance : Inhabited Registry := ⟨empty⟩

def hasClass (r : Registry) (name : String) : Bool := r.classes.contains name

def add (r : Registry) (request : Registration) : Except RegistrationError Nat × Registry :=
  match r.functions.add request with
  | .ok (handle, functions) => (.ok handle, { r with functions := functions })
  | .error e => (.error e, r)

/-- Adds a class, unless one of its name is there already.  The answer tells whether it was added.
A class whose setup fails leaves nothing behind. -/
def addClass (r : Registry) (c : ClassDeclaration) : Except RegistrationError Bool × Registry :=
  if r.hasClass c.name then (.ok false, r)
  else
    match c.setup.run r.functions with
    | (.ok (), functions) => (.ok true, ⟨functions, r.classes ++ [c.name]⟩)
    | (.error e, functions) =>
      (.error e, { r with functions := functions.truncate r.functions.size })

def describeClasses (r : Registry) : String :=
  "MetaClassRegistry \x7b classes: [" ++ ", ".intercalate (r.classes.map Text.quote) ++ "] \x7d"

end Registry
end ScriptEngine
