/-
Counts in a machine word.

A count is a number below a limit.  Where the receiver of a method has no place
in the count of its arguments, the engine breaks off: that is no error which a
script or a caller gets to see.
-/

namespace ScriptEngine

/-- The numbers that a machine word cannot hold begin here. -/
def wordLimit : Nat := Nat.pow 2 64

/-- A count with no place in a machine word. -/
inductive CountOverflow where
  | receiver
  deriving DecidableEq, Repr

namespace CountOverflow

/-- What the engine leaves behind where it breaks off. -/
def message : CountOverflow → String
  | receiver => "attempt to add with overflow"

end CountOverflow

/-- The number of the arguments of a method together with the receiver. -/
def countWithReceiver (argc : Nat) : Except CountOverflow Nat :=
  if wordLimit ≤ argc + 1 then .error .receiver else .ok (argc + 1)

theorem countWithReceiver_of_lt {argc : Nat} (h : argc + 1 < wordLimit) :
    countWithReceiver argc = .ok (argc + 1) := if_neg (Nat.not_le_of_lt h)

end ScriptEngine
