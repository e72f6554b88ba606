/-
Host types and their instances.

A host type is made known to scripts by the class name they use for it and by
the fields that its values consist of.  An instance keeps those fields, so that
objects of all host types live in one heap, and a value is read back only from
an instance of its own host type.  Two host types may share a class name.
-/
import ScriptEngine.Decimal.Shortest
import ScriptEngine.Text.Quoted

namespace ScriptEngine

/-- What a field of an instance holds. -/
inductive Datum where
  | number (value : Float)
  | integer (value : Int)
  | bool (value : Bool)
  | text (value : String)
  deriving Repr

def Datum.describe : Datum → String
  | .number value => Decimal.detailedText value
  | .integer value => toString value
  | .bool value => if value then "true" else "false"
  | .text value => Text.quote value

/-- A host type that scripts can hold instances of. -/
class HostClass (α : Type) where
  /-- The name of the host type, which no other host type has. -/
  typeName : String
  /-- The name that scripts use. -/
  className : String
  /-- The named fields of a value. -/
  fields : α → List (String × Datum)
  /-- The value with the given fields. -/
  ofFields? : List (String × Datum) → Option α
  /-- The text that scripts see. -/
  display : α → String
  ofFields?_fields : ∀ a, ofFields? (fields a) = some a

/-- An instance of some host type: the names of its type and of its class, its fields, and the
text that scripts see. -/
structure Instance where
  typeName : String
  className : String
  fields : List (String × Datum)
  display : String
  deriving Repr

namespace Instance

def ofValue {α : Type} [HostClass α] (a : α) : Instance where
  typeName := HostClass.typeName α
  className := HostClass.className α
  fields := HostClass.fields a
  display := HostClass.display a

def value? (α : Type) [HostClass α] (i : Instance) : Option α :=
  if i.typeName = HostClass.typeName α then HostClass.ofFields? i.fields else none

@[simp] theorem value?_ofValue {α : Type} [HostClass α] (a : α) :
    (ofValue a).value? α = some a := by
  simp [value?, ofValue, HostClass.ofFields?_fields]

def describe (i : Instance) : String :=
  if i.fields.isEmpty then i.typeName
  else
    i.typeName ++ " \x7b " ++
      ", ".intercalate (i.fields.map fun f => f.1 ++ ": " ++ f.2.describe) ++ " \x7d"

end Instance
end ScriptEngine
