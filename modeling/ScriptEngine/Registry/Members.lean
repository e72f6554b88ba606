/-
The members of a class.

A host type is offered to scripts member by member: constructors, methods and
accessors, each a request under the name that the compiler looks up.  A getter
has the name of the member, and a setter that name behind a mark.
-/
import ScriptEngine.Registry.Classes

namespace ScriptEngine
namespace Members

def constructorName (className : String) : String := className ++ "_constructor"

/-- The name of the method that writes a member. -/
def setterName (member : String) : String := "set_" ++ member

variable (α : Type) [HostClass α]

/-- The type of the instances. -/
@[reducible] def self : NativeType := .instanceOf (HostClass.className α)

def constructor (params : List NativeType) (f : Curried (Action α) params) : Registration :=
  .function (constructorName (HostClass.className α))
    { arity := .fixed params.length
      signature := NativeFunction.signatureOf params (self α)
      body := fun args => do
        let a ← Action.apply args 0 params f
        pure (.object (← Action.create a)) }

def method (name : String) (params : List NativeType) (result : NativeType)
    (f : ObjectRef → Curried (Action result.Carrier) params) : Registration :=
  .method (HostClass.className α) name (.typed (self α :: params) result f)

/-- A getter that may look at the world beside the instance. -/
def reader (member : String) (result : NativeType) (get : α → Action result.Carrier) :
    Registration :=
  method α member [] result fun ref => do
    get (← Action.read α ref)

def getter (member : String) (result : NativeType) (get : α → result.Carrier) : Registration :=
  reader α member result fun a => pure (get a)

def setter (member : String) (type : NativeType) (set : α → type.Carrier → α) : Registration :=
  method α (setterName member) [type] .unset fun ref v => Action.update α ref fun a => set a v

/-- A getter and a setter of one member. -/
def property (member : String) (type : NativeType) (get : α → type.Carrier)
    (set : α → type.Carrier → α) : List Registration :=
  [getter α member type get, setter α member type set]

end Members
end ScriptEngine
