/-
The class of measurements: a stopwatch that collects samples.

Times are whole nanoseconds of the world's clock and are given to scripts in
seconds.
-/
import ScriptEngine.Registry.Members

namespace ScriptEngine

/-- A stopwatch: when it started, when it was last sampled, how many samples it has and how long
they took together. -/
structure Measurement where
  started : Nat
  last : Nat
  count : Nat
  total : Nat
  deriving DecidableEq, Repr

namespace Measurement

def startingAt (now : Nat) : Measurement := ⟨now, now, 0, 0⟩

def sample (m : Measurement) (now : Nat) : Measurement :=
  { m with last := now, count := m.count + 1, total := m.total + (now - m.last) }

def average (m : Measurement) : Nat := m.total / m.count

def seconds (nanoseconds : Nat) : Float :=
  Float.ofNat (nanoseconds / 1000000000) + Float.ofNat (nanoseconds % 1000000000) / 1e9

instance : HostClass Measurement where
  typeName := "Measurement"
  className := "Measurement"
  fields m := [("started", .integer m.started), ("last", .integer m.last),
    ("count", .integer m.count), ("total", .integer m.total)]
  ofFields?
    | [(_, .integer started), (_, .integer last), (_, .integer count), (_, .integer total)] =>
      some ⟨started.toNat, last.toNat, count.toNat, total.toNat⟩
    | _ => none
  display m :=
    "Measurement(" ++ toString m.count ++ " sample(s), " ++ Decimal.text (seconds m.average) ++
      "s average)"
  ofFields?_fields _ := rfl

open Members in
def members : List Registration :=
  [constructor Measurement [] (do pure (startingAt (← Action.now))),
   method Measurement "sample" [] .number fun ref => do
     let now ← Action.now
     Action.modifyGet Measurement ref fun m => (seconds (now - m.last), m.sample now),
   method Measurement "reset" [] .unset fun ref => do
     let now ← Action.now
     Action.update Measurement ref fun _ => startingAt now,
   reader Measurement "elapsed" .number fun m => do
     pure (seconds ((← Action.now) - m.started)),
   getter Measurement "count" .number fun m => Float.ofNat m.count,
   getter Measurement "average" .number fun m => seconds m.average]

def declaration : ClassDeclaration := ⟨"Measurement", .ofList members⟩

end Measurement
end ScriptEngine
