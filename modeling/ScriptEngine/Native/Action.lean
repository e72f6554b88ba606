/-
What native functions do.

An action is made of requests: it offers a text to the output and learns whether
the write went well, it looks at the store, or it changes the store.  It has no
way to see or to take back what is already written, so an action only ever
appends to the output.  What it did before it failed stays done.
-/
import ScriptEngine.Output
import ScriptEngine.Store

namespace ScriptEngine

/-- What a run acts on: its objects and its output. -/
structure World where
  store : Store
  output : Output

def World.ofOutput (output : Output) : World := ⟨.empty, output⟩

instance : Inhabited World := ⟨.ofOutput .unlimited⟩

/-- An action with a result of the given type. -/
inductive Action (α : Type) where
  | done (result : α)
  | fail (error : NativeError)
  /-- Offers a text to the output; the rest may depend on whether the write goes well. -/
  | offer (piece : String) (next : Bool → Action α)
  /-- Looks at the store. -/
  | look (next : Store → Action α)
  /-- Changes the store. -/
  | change (f : Store → Store) (next : Action α)

namespace Action

variable {α β : Type}

/-- Goes on with the result of an action. -/
def bind : Action α → (α → Action β) → Action β
  | done a, f => f a
  | fail e, _ => fail e
  | offer piece next, f => offer piece fun taken => (next taken).bind f
  | look next, f => look fun s => (next s).bind f
  | change g next, f => change g (next.bind f)

instance : Monad Action where
  pure := done
  bind := bind

/-- Runs an action in a world. -/
def run : Action α → World → EStateM.Result NativeError World α
  | done a, w => .ok a w
  | fail e, w => .error e w
  | offer piece next, w =>
    let written := w.output.write piece
    (next written.1).run { w with output := written.2 }
  | look next, w => (next w.store).run w
  | change f next, w => next.run { w with store := f w.store }

@[simp] theorem run_pure (a : α) (w : World) : (pure a : Action α).run w = .ok a w := rfl

/-- Running one action after the other runs the second in the world that the first one leaves. -/
theorem run_bind (a : Action α) (f : α → Action β) (w : World) :
    (a >>= f).run w =
      match a.run w with
      | .ok r changed => (f r).run changed
      | .error e changed => .error e changed := by
  show (a.bind f).run w = _
  induction a generalizing w with
  | done r => rfl
  | fail e => rfl
  | offer piece next ih => exact ih _ _
  | look next ih => exact ih w.store w
  | change g next ih => exact ih _

/-! ## Requests -/

/-- The action that does nothing but give a result or fail. -/
def ofExcept : Except NativeError α → Action α
  | .ok a => done a
  | .error e => fail e

/-- Writes a text to the output. -/
def write (piece : String) : Action Unit :=
  offer piece fun taken => if taken then done () else fail .output

/-- Reads the clock, which never shows the same time twice. -/
def now : Action Nat := look fun s => change Store.tick (done s.clock)

def display (v : Value) : Action String := look fun s => done (s.display v)

def create [HostClass α] (a : α) : Action ObjectRef :=
  look fun s => change (·.allocate a) (done (s.fresh α))

def read (α : Type) [HostClass α] (ref : ObjectRef) : Action α :=
  look fun s =>
    match s.read α ref with
    | .ok a => done a
    | .error e => fail (.conversion e)

/-- Changes an object and gives a result that depends on it. -/
def modifyGet (α : Type) [HostClass α] (ref : ObjectRef) (f : α → β × α) : Action β :=
  look fun s =>
    match s.readToWrite α ref with
    | .ok a => change (·.write ref (f a).2) (done (f a).1)
    | .error e => fail (.conversion e)

def update (α : Type) [HostClass α] (ref : ObjectRef) (f : α → α) : Action Unit :=
  modifyGet α ref fun a => ((), f a)

/-- Runs an action to its end, and gives its failure as a result. -/
def attempt : Action α → Action (Except NativeError α)
  | done a => done (.ok a)
  | fail e => done (.error e)
  | offer piece next => offer piece fun taken => (next taken).attempt
  | look next => look fun s => (next s).attempt
  | change f next => change f next.attempt

/-- Works on an object as its only holder: what the work does to the value is stored when it ends
well, and the object is let go in any case. -/
def withWriter (α : Type) [HostClass α] (ref : ObjectRef) (work : α → Action (β × α)) :
    Action β :=
  look fun s =>
    match s.readToWrite α ref with
    | .error e => fail (.conversion e)
    | .ok a =>
      change (·.addWriter ref) do
        match ← (work a).attempt with
        | .ok (b, changed) => change (fun s => (s.dropWriter ref).write ref changed) (done b)
        | .error e => change (·.dropWriter ref) (fail e)

end Action
end ScriptEngine
