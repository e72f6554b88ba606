/-
Writing a program instruction by instruction.

Every emitted instruction gets the line that was set last.  A forward jump is
emitted with a target that no program has, and its label is the place where the
target is put in later.
-/
import ScriptEngine.Bytecode.Program

namespace ScriptEngine

/-- A forward jump: where it stands, and whether it depends on a condition. -/
structure Label where
  offset : Nat
  conditional : Bool
  deriving DecidableEq, Repr

namespace Label

/-- The target of a jump that has none yet: the greatest machine word. -/
def placeholder : Nat := Nat.pow 2 64 - 1

def jump (l : Label) (target : Nat) : Instruction :=
  if l.conditional then .jumpIfFalse target else .jump target

end Label

/-- A program in the making, and the line of the next instruction. -/
structure Emitter where
  code : Array Instruction
  lines : Array Nat
  constants : ConstantPool
  line : Nat

namespace Emitter

def new : Emitter := ⟨#[], #[], .empty, 1⟩

instance : Inhabited Emitter := ⟨new⟩

def offset (e : Emitter) : Nat := e.code.size

def setLine (e : Emitter) (line : Nat) : Emitter := { e with line := line }

def emit (e : Emitter) (i : Instruction) : Emitter :=
  { e with code := e.code.push i, lines := e.lines.push e.line }

/-- Appends an instruction that puts a constant on the stack. -/
def constant (e : Emitter) (c : Constant) : Emitter :=
  let (index, constants) := e.constants.add c
  { e with constants := constants }.emit (.constant index)

def jump (e : Emitter) (conditional : Bool) : Label × Emitter :=
  let label : Label := ⟨e.offset, conditional⟩
  (label, e.emit (label.jump Label.placeholder))

/-- Lets a forward jump go on at the next instruction. -/
def patch (e : Emitter) (label : Label) : Emitter :=
  { e with code := e.code.setIfInBounds label.offset (label.jump e.offset) }

def loop (e : Emitter) (start : Nat) : Emitter := e.emit (.jump start)

def finish (e : Emitter) (slotNames : Array String) (methods : Array MethodTable) : Program :=
  ⟨e.code, e.lines, e.constants, slotNames, methods⟩

end Emitter
end ScriptEngine
