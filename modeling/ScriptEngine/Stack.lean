/-
Stacks of bounded size.

A stack never holds more than its capacity; that bound is part of the type, so
every stack that exists keeps it.  An operation that does not fit the contents
is refused and changes nothing.
-/

namespace ScriptEngine

/-- Why a stack refuses an operation. -/
inductive StackError where
  | overflow (capacity : Nat)
  | underflow
  | outOfRange (depth count : Nat)
  deriving DecidableEq, Repr

namespace StackError

def name : StackError → String
  | overflow _ => "Overflow"
  | underflow => "Underflow"
  | outOfRange .. => "OutOfRange"

def message : StackError → String
  | overflow capacity => "stack overflow (capacity " ++ toString capacity ++ ")"
  | underflow => "stack underflow"
  | outOfRange depth count =>
    "stack depth " ++ toString depth ++ " out of range for " ++ toString count ++ " element(s)"

end StackError

/-- A stack of at most `capacity` elements, the topmost first. -/
structure Stack (α : Type) (capacity : Nat) where
  items : List α
  size_le : items.length ≤ capacity

namespace Stack

variable {α : Type} {capacity : Nat}

def empty : Stack α capacity := ⟨[], Nat.zero_le _⟩

def size (s : Stack α capacity) : Nat := s.items.length

def isEmpty (s : Stack α capacity) : Bool := s.items.isEmpty

def isFull (s : Stack α capacity) : Bool := s.size = capacity

def push (s : Stack α capacity) (a : α) : Except StackError (Stack α capacity) :=
  if h : s.items.length < capacity then .ok ⟨a :: s.items, h⟩ else .error (.overflow capacity)

def pop (s : Stack α capacity) : Except StackError (α × Stack α capacity) :=
  match s with
  | ⟨[], _⟩ => .error .underflow
  | ⟨a :: rest, h⟩ => .ok (a, ⟨rest, Nat.le_of_succ_le h⟩)

def top (s : Stack α capacity) : Except StackError α :=
  match s.items with
  | [] => .error .underflow
  | a :: _ => .ok a

def peek (s : Stack α capacity) (depth : Nat) : Except StackError α :=
  match s.items[depth]? with
  | some a => .ok a
  | none => .error (if s.items.isEmpty then .underflow else .outOfRange depth s.size)

/-- Takes the topmost `count` elements off and gives them from the bottom up. -/
def popMany (s : Stack α capacity) (count : Nat) :
    Except StackError (List α × Stack α capacity) :=
  if count ≤ s.items.length then
    .ok ((s.items.take count).reverse,
      ⟨s.items.drop count, Nat.le_trans (by simp) s.size_le⟩)
  else .error .underflow

def toList (s : Stack α capacity) : List α := s.items.reverse

end Stack
end ScriptEngine
