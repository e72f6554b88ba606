/-
Whole numbers among the doubles, and the integer types that natives take.

A double is read exactly from its bits, so whether it is whole, and which whole
number it is, are questions about naturals.
-/

namespace ScriptEngine

/-- The whole number that a double is, if it is one. -/
def wholeNumber? (x : Float) : Option Int :=
  let bits := x.toBits.toNat
  let fraction := bits % Nat.pow 2 52
  let biased := bits / Nat.pow 2 52 % Nat.pow 2 11
  let mantissa := if biased = 0 then fraction else Nat.pow 2 52 + fraction
  let scale := if biased = 0 then 1 else biased
  let signed (n : Nat) : Int := if bits < Nat.pow 2 63 then n else -n
  if biased = 2047 then none
  else if 1075 ≤ scale then some (signed (mantissa * Nat.pow 2 (scale - 1075)))
  else if mantissa % Nat.pow 2 (1075 - scale) = 0 then
    some (signed (mantissa / Nat.pow 2 (1075 - scale)))
  else none

/-- An integer type: whether it has negative numbers, and its width in bits. -/
structure IntegerType where
  signed : Bool
  bits : Nat
  deriving DecidableEq, Repr

namespace IntegerType

def least (t : IntegerType) : Int := if t.signed then -(Nat.pow 2 (t.bits - 1) : Nat) else 0

def greatest (t : IntegerType) : Int :=
  if t.signed then (Nat.pow 2 (t.bits - 1) : Nat) - 1 else (Nat.pow 2 t.bits : Nat) - 1

/-- The greatest number accepted for the type.  The bound is held as a double, and a greatest
number of more than 53 binary digits rounds up to the power of two above it. -/
def limit (t : IntegerType) : Int :=
  if t.greatest < (Nat.pow 2 53 : Nat) then t.greatest else t.greatest + 1

/-- The number of the type that a double stands for: the whole number that it is, up to the limit.
The limit itself stands for the greatest number. -/
def ofFloat? (t : IntegerType) (x : Float) : Option Int :=
  match wholeNumber? x with
  | some n => if t.least ≤ n ∧ n ≤ t.limit then some (min n t.greatest) else none
  | none => none

end IntegerType
end ScriptEngine
