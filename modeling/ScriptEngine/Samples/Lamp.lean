/-
Sample classes beside the counter: a lamp that shares some member names with it,
and a host type that goes by the name of another one's class.
-/
import ScriptEngine.Library.Color

namespace ScriptEngine

/-- The integers of 8 bits without a sign. -/
def IntegerType.byte : IntegerType := ⟨false, 8⟩

structure Lamp where
  on : Bool
  level : Int := 0
  deriving Repr

namespace Lamp

instance : HostClass Lamp where
  typeName := "Lamp"
  className := "Lamp"
  fields l := [("on", .bool l.on), ("level", .integer l.level)]
  ofFields?
    | [(_, .bool on), (_, .integer level)] => some ⟨on, level⟩
    | _ => none
  display l := "Lamp(" ++ (if l.on then "true" else "false") ++ ", " ++ toString l.level ++ ")"
  ofFields?_fields _ := rfl

open Members in
def members : List Registration :=
  [constructor Lamp [.bool] fun on => pure { on := on },
   method Lamp "reset" [] .unset fun ref => Action.update Lamp ref fun _ => ⟨false, 0⟩,
   method Lamp "scale" [.integer .byte] .number fun ref n => do
     pure (Float.ofInt ((← Action.read Lamp ref).level * n))] ++
  property Lamp "on" .bool (·.on) (fun l v => { l with on := v }) ++
  property Lamp "level" (.integer .byte) (·.level) (fun l v => { l with level := v }) ++
  [getter Lamp "kind" .string fun _ => "lamp"]

def declaration : ClassDeclaration := ⟨"Lamp", .ofList members⟩

end Lamp

/-- A host type whose instances claim to be colors. -/
structure Impostor where
  deriving Repr

instance : HostClass Impostor where
  typeName := "Impostor"
  className := HostClass.className Color
  fields _ := []
  ofFields?
    | [] => some ⟨⟩
    | _ => none
  display _ := "Impostor"
  ofFields?_fields _ := rfl

end ScriptEngine
