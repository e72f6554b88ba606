/-
The class of colors: triples of red, green and blue.

Adding and scaling make new colors; only the setters change one.
-/
import ScriptEngine.Registry.Members

namespace ScriptEngine

structure Color where
  red : Float
  green : Float
  blue : Float
  deriving Repr

namespace Color

def black : Color := ⟨0, 0, 0⟩

def add (a b : Color) : Color := ⟨a.red + b.red, a.green + b.green, a.blue + b.blue⟩

/-- A color with each part taken a number of times. -/
def scale (c : Color) (factor : Float) : Color :=
  ⟨c.red * factor, c.green * factor, c.blue * factor⟩

instance : HostClass Color where
  typeName := "Color"
  className := "Color"
  fields c := [("red", .number c.red), ("green", .number c.green), ("blue", .number c.blue)]
  ofFields?
    | [(_, .number red), (_, .number green), (_, .number blue)] => some ⟨red, green, blue⟩
    | _ => none
  display c :=
    "Color(" ++ Decimal.text c.red ++ ", " ++ Decimal.text c.green ++ ", " ++
      Decimal.text c.blue ++ ")"
  ofFields?_fields _ := rfl

open Members in
def members : List Registration :=
  [constructor Color [.number, .number, .number] fun red green blue => pure ⟨red, green, blue⟩,
   constructor Color [] (pure black),
   method Color "add" [self Color] (self Color) fun ref other => do
     let a ← Action.read Color ref
     let b ← Action.read Color other
     Action.create (a.add b),
   method Color "scale" [.number] (self Color) fun ref factor => do
     let c ← Action.read Color ref
     Action.create (c.scale factor)] ++
  property Color "red" .number (·.red) (fun c v => { c with red := v }) ++
  property Color "green" .number (·.green) (fun c v => { c with green := v }) ++
  property Color "blue" .number (·.blue) (fun c v => { c with blue := v })

def declaration : ClassDeclaration := ⟨"Color", .ofList members⟩

end Color
end ScriptEngine
