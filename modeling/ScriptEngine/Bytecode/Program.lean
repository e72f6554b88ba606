/-
Compiled programs.

A program is its instructions with the line of each, and the tables they point
into: constants, the names of the variables, and for each method that is called
the classes that implement it.
-/
import ScriptEngine.Bytecode.Constant
import ScriptEngine.Bytecode.Instruction

namespace ScriptEngine

/-- The implementations of one method by class, and the name and number of arguments under which a
script calls it. -/
structure MethodTable where
  name : String
  argc : Nat
  classes : List (String × Nat)
  deriving DecidableEq, Repr

namespace MethodTable

def new (name : String) (argc : Nat) : MethodTable := ⟨name, argc, []⟩

def insert (t : MethodTable) (className : String) (handle : Nat) : MethodTable :=
  { t with classes := t.classes.filter (fun entry => entry.1 ≠ className) ++ [(className, handle)] }

def handleFor? (t : MethodTable) (className : String) : Option Nat := t.classes.lookup className

/-- The only class with an implementation. -/
def soleClass? (t : MethodTable) : Option String :=
  match t.classes with
  | [(className, _)] => some className
  | _ => none

end MethodTable

structure Program where
  code : Array Instruction
  lines : Array Nat
  constants : ConstantPool
  slotNames : Array String
  methods : Array MethodTable

namespace Program

def size (p : Program) : Nat := p.code.size

/-- The line of an instruction, and zero where there is none. -/
def lineAt (p : Program) (offset : Nat) : Nat := p.lines[offset]?.getD 0

def slotName? (p : Program) (slot : Nat) : Option String := p.slotNames[slot]?

/-- What a listing adds to an instruction: the constant, the variable or the method that it
means. -/
def comment (p : Program) : Instruction → String
  | .constant index => (p.constants.get? index).elim "" fun c => " (" ++ c.text ++ ")"
  | .load slot | .store slot => (p.slotName? slot).elim "" fun name => " (" ++ name ++ ")"
  | .callMethod method _ => p.methods[method]?.elim "" fun t => " (" ++ t.name ++ ")"
  | _ => ""

/-- The line number as a listing shows it: four places wide, and a bar when it is that of the
instruction before. -/
def lineColumn (line : Nat) (previous : Option Nat) : String :=
  if previous = some line then "   |"
  else
    let digits := toString line
    "".pushn ' ' (4 - digits.length) ++ digits

/-- The listing of the instructions from an offset on. -/
def listingFrom (p : Program) (offset : Nat) (previous : Option Nat) :
    List Instruction → List String
  | [] => []
  | i :: rest =>
    let line := p.lineAt offset
    (Instruction.padded offset ++ " " ++ lineColumn line previous ++ "  " ++ i.text ++ p.comment i)
      :: listingFrom p (offset + 1) (some line) rest

def listing (p : Program) : List String := p.listingFrom 0 none p.code.toList

end Program
end ScriptEngine
