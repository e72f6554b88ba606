/-
The objects of a run.

Objects live in cells, and cells are only added.  While a function works on an
object it holds it: any number of readers may share an object, a writer has it
alone.  The store also knows the time, which passes when someone looks at it.
-/
import ScriptEngine.Instance
import ScriptEngine.Native.Error
import ScriptEngine.Value

namespace ScriptEngine

/-- Who holds an object: some readers, or one writer. -/
inductive Hold where
  | readers (count : Nat)
  | writer
  deriving DecidableEq, Repr

/-- A cell of the store: an instance, and who holds it. -/
structure Cell where
  content : Instance
  hold : Hold
  deriving Repr

/-- The objects of a run, and how often the clock was read. -/
structure Store where
  cells : Array Cell
  clock : Nat

namespace Store

def empty : Store := ⟨#[], 0⟩

instance : Inhabited Store := ⟨empty⟩

variable (α : Type) [HostClass α]

/-- The reference of the next object. -/
def fresh (s : Store) : ObjectRef := ⟨s.cells.size, HostClass.className α⟩

/-- Places a value in a new object, whose reference is `fresh`. -/
def allocate {α : Type} [HostClass α] (s : Store) (a : α) : Store :=
  { s with cells := s.cells.push ⟨.ofValue a, .readers 0⟩ }

/-- The store after its clock was read. -/
def tick (s : Store) : Store := { s with clock := s.clock + 1 }

/-- The class of an object has to be that of the host type. -/
def checkClass (ref : ObjectRef) : Except ConversionError Unit :=
  if ref.className = HostClass.className α then .ok ()
  else .error (.classMismatch (HostClass.className α) ref.className)

/-- The value of an object, if its host type is `α`. -/
def valueAt? (s : Store) (ref : ObjectRef) : Option α :=
  s.cells[ref.cell]? >>= fun c => c.content.value? α

/-- Whether a writer holds an object. -/
def isWritten (s : Store) (ref : ObjectRef) : Bool :=
  match s.cells[ref.cell]? with
  | some ⟨_, .writer⟩ => true
  | _ => false

/-- Whether anyone holds an object. -/
def isHeld (s : Store) (ref : ObjectRef) : Bool :=
  match s.cells[ref.cell]? with
  | some ⟨_, .readers 0⟩ => false
  | some _ => true
  | none => false

/-- The value of an object of the host type, unless the given test tells that others hold it.  The
class is checked first, and the host type last. -/
def borrow (held : Bool) (s : Store) (ref : ObjectRef) : Except ConversionError α := do
  checkClass α ref
  if held then throw (.alreadyBorrowed ref.className)
  match s.valueAt? α ref with
  | some a => pure a
  | none => throw (.classMismatch (HostClass.className α) ref.className)

def read (s : Store) (ref : ObjectRef) : Except ConversionError α :=
  borrow α (s.isWritten ref) s ref

def readToWrite (s : Store) (ref : ObjectRef) : Except ConversionError α :=
  borrow α (s.isHeld ref) s ref

def write {α : Type} [HostClass α] (s : Store) (ref : ObjectRef) (a : α) : Store :=
  { s with cells := s.cells.modify ref.cell fun c => { c with content := .ofValue a } }

/-- Changes who holds an object. -/
def setHold (s : Store) (ref : ObjectRef) (f : Hold → Hold) : Store :=
  { s with cells := s.cells.modify ref.cell fun c => { c with hold := f c.hold } }

def addReader (s : Store) (ref : ObjectRef) : Store :=
  s.setHold ref fun
    | .readers n => .readers (n + 1)
    | .writer => .writer

def dropReader (s : Store) (ref : ObjectRef) : Store :=
  s.setHold ref fun
    | .readers n => .readers (n - 1)
    | .writer => .writer

def addWriter (s : Store) (ref : ObjectRef) : Store := s.setHold ref fun _ => .writer

def dropWriter (s : Store) (ref : ObjectRef) : Store := s.setHold ref fun _ => .readers 0

/-- The text of an object: that of its value, unless a writer holds it. -/
def displayObject (s : Store) (ref : ObjectRef) : String :=
  match s.cells[ref.cell]? with
  | some ⟨content, .readers _⟩ => content.display
  | _ => "<" ++ ref.className ++ " instance>"

def describeObject (s : Store) (ref : ObjectRef) : String :=
  "ClassRef(" ++
    (match s.cells[ref.cell]? with
      | some ⟨content, .readers _⟩ => content.describe
      | _ => Text.quote ref.className) ++ ")"

def display (s : Store) : Value → String
  | .unset => "unset"
  | .number x => Decimal.text x
  | .bool b => if b then "true" else "false"
  | .string s => s
  | .object ref => s.displayObject ref

end Store
end ScriptEngine
