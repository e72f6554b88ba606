/-
A sample class: a counter with a step and a label.

Some of its methods work on the counter as its only holder, so they show what
happens when an object is used while it is held.
-/
import ScriptEngine.Registry.Members

namespace ScriptEngine

/-- The integers of 32 bits with a sign. -/
def IntegerType.word32 : IntegerType := ⟨true, 32⟩

structure Counter where
  value : Float
  step : Int := 1
  label : String := ""
  deriving Repr

namespace Counter

instance : HostClass Counter where
  typeName := "Counter"
  className := "Counter"
  fields c := [("value", .number c.value), ("step", .integer c.step), ("label", .text c.label)]
  ofFields?
    | [(_, .number value), (_, .integer step), (_, .text label)] => some ⟨value, step, label⟩
    | _ => none
  display c := "Counter(" ++ Decimal.text c.value ++ ")"
  ofFields?_fields _ := rfl

def raise (c : Counter) (amount : Float) : Float × Counter :=
  (c.value + amount, { c with value := c.value + amount })

def reset (c : Counter) : Counter := { c with value := 0 }

open Members in
def members : List Registration :=
  [constructor Counter [] (pure { value := 0 }),
   constructor Counter [.number] fun value => pure { value := value },
   method Counter "bump" [.number] .number fun ref n => Action.modifyGet Counter ref (raise · n),
   method Counter "tick" [] .number fun ref =>
     Action.modifyGet Counter ref fun c => c.raise (Float.ofInt c.step),
   method Counter "reset" [] .unset fun ref => Action.update Counter ref reset,
   method Counter "drain" [self Counter] .number fun ref other =>
     Action.withWriter Counter ref fun c => do
       let moved ← Action.modifyGet Counter other fun o => (o.value, o.reset)
       pure (c.raise moved),
   method Counter "describe" [.any] .string fun ref v =>
     Action.withWriter Counter ref fun c => do
       pure (← Action.display v, c),
   method Counter "me" [] (self Counter) fun ref => pure ref,
   method Counter "copy" [] (self Counter) fun ref => do
     Action.create (← Action.read Counter ref),
   method Counter "fail" [.string] .unset fun _ message => .fail (.failed message),
   getter Counter "value" .number (·.value)] ++
  property Counter "step" (.integer .word32) (·.step) (fun c v => { c with step := v }) ++
  property Counter "label" .string (·.label) (fun c v => { c with label := v }) ++
  [setter Counter "poke" .number fun c v => { c with value := v }]

def declaration : ClassDeclaration := ⟨"Counter", .ofList members⟩

end Counter
end ScriptEngine
