/-
The variables of a script and their slots.

All variables live in one scope, so a name keeps the slot that it gets when it
is met first.
-/

namespace ScriptEngine

/-- The names of the variables; the place of a name is its slot. -/
structure Symbols where
  names : Array String
  deriving DecidableEq, Repr

namespace Symbols

def empty : Symbols := ⟨#[]⟩

instance : Inhabited Symbols := ⟨empty⟩

def lookup? (s : Symbols) (name : String) : Option Nat := s.names.findIdx? (· = name)

/-- The slot of a name, which gets one if it has none. -/
def declare (s : Symbols) (name : String) : Nat × Symbols :=
  match s.lookup? name with
  | some slot => (slot, s)
  | none => (s.names.size, ⟨s.names.push name⟩)

end Symbols
end ScriptEngine
