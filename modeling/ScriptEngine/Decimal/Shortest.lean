/-
The shortest decimal text of a double.

A finite double is `m * 2 ^ q` for naturals and integers.  The reals that round
to it form an interval around it, and the digits written are the fewest that
name a point of that interval; of several such points the nearest is taken, and
of two equally near ones the larger.  All comparisons are exact, between
naturals brought to one denominator.  The digits are always laid out
positionally, without an exponent and without a point after an integer.
-/

namespace ScriptEngine
namespace Decimal

/-- A decimal numeral: `digits * 10 ^ scale`. -/
structure Numeral where
  digits : Nat
  scale : Int
  deriving DecidableEq, Repr

/-- A positive rational with the interval of the reals that round to it, all over one
denominator.  The interval holds its ends exactly when `closed` is set. -/
structure Target where
  value : Nat
  low : Nat
  high : Nat
  denominator : Nat
  closed : Bool

namespace Target

/-- The target of the finite positive double with these magnitude bits.  Its neighbours lie one
unit of the last place away, except that below a power of two the gap is half as wide. -/
def ofBits (bits : Nat) : Target :=
  let fraction := bits % Nat.pow 2 52
  let biased := bits / Nat.pow 2 52 % Nat.pow 2 11
  let mantissa := if biased = 0 then fraction else Nat.pow 2 52 + fraction
  let exponent : Int := ((if biased = 0 then 1 else biased : Nat) : Int) - 1077
  let below := if fraction = 0 ∧ 1 < biased then 1 else 2
  let up := Nat.pow 2 exponent.toNat
  { value := 4 * mantissa * up
    low := (4 * mantissa - below) * up
    high := (4 * mantissa + 2) * up
    denominator := Nat.pow 2 (-exponent).toNat
    closed := mantissa % 2 = 0 }

def holds (t : Target) (count : Nat) (scale : Int) : Bool :=
  let point := count * Nat.pow 10 scale.toNat * t.denominator
  let unit := Nat.pow 10 (-scale).toNat
  if t.closed then t.low * unit ≤ point ∧ point ≤ t.high * unit
  else t.low * unit < point ∧ point < t.high * unit

def floorAt (t : Target) (scale : Int) : Nat :=
  t.value * Nat.pow 10 (-scale).toNat / (t.denominator * Nat.pow 10 scale.toNat)

/-- Whether the value lies strictly below the middle of `count` and `count + 1` units. -/
def belowMiddle (t : Target) (count : Nat) (scale : Int) : Bool :=
  2 * t.value * Nat.pow 10 (-scale).toNat <
    (2 * count + 1) * (t.denominator * Nat.pow 10 scale.toNat)

/-- The nearest point of the grid `10 ^ scale` that rounds to the target, if there is one.  Only
the two grid points around the value need a look. -/
def onGrid? (t : Target) (scale : Int) : Option Numeral :=
  let count := t.floorAt scale
  match t.holds count scale, t.holds (count + 1) scale with
  | true, true => some ⟨if t.belowMiddle count scale then count else count + 1, scale⟩
  | true, false => some ⟨count, scale⟩
  | false, true => some ⟨count + 1, scale⟩
  | false, false => none

/-- Raises a scale until the value is below `10 ^ scale`. -/
def raiseScale (t : Target) : Nat → Int → Int
  | 0, scale => scale
  | steps + 1, scale => if t.floorAt scale = 0 then scale else raiseScale t steps (scale + 1)

/-- The least scale whose power of ten exceeds the value.  The binary size gives a first guess
that is at most two too low. -/
def magnitude (t : Target) : Int :=
  let size : Int := (t.value.log2 : Int) - (t.denominator.log2 : Int)
  t.raiseScale 4 ((size - 1) * 30103 / 100000)

/-- The shortest numeral that rounds to the target.  Seventeen digits suffice for a double, and
the search stops there. -/
def shortest (t : Target) : Numeral :=
  let top := t.magnitude
  match (List.range 17).findSome? fun n : Nat => t.onGrid? (top - 1 - n) with
  | some numeral => numeral
  | none => ⟨t.floorAt (top - 17), top - 17⟩

end Target

namespace Numeral

/-- The digits before the point and the digits behind it, without zeros at the end. -/
def parts (n : Numeral) : String × String :=
  let digits := toString n.digits
  if 0 ≤ n.scale then (digits ++ "".pushn '0' n.scale.toNat, "")
  else
    let places := (-n.scale).toNat
    let padded := ("".pushn '0' (places + 1 - digits.length) ++ digits).toList
    let whole := padded.length - places
    (String.ofList (padded.take whole),
      String.ofList ((padded.drop whole).reverse.dropWhile (· = '0')).reverse)

/-- A numeral laid out with a point and without an exponent. -/
def positional (n : Numeral) : String :=
  let (whole, fraction) := n.parts
  if fraction.isEmpty then whole else whole ++ "." ++ fraction

/-- The exponent of the leading digit. -/
def leadingExponent (n : Numeral) : Int := (toString n.digits).length - 1 + n.scale

/-- A numeral laid out with one digit before the point and an exponent. -/
def scientific (n : Numeral) : String :=
  let mantissa : Numeral := ⟨n.digits, 1 - (toString n.digits).length⟩
  mantissa.positional ++ "e" ++ toString n.leadingExponent

/-- A numeral laid out so that it shows a point or an exponent.  Numbers from `10 ^ 16` on and
numbers below `10 ^ (-4)` have an exponent. -/
def detailed (n : Numeral) : String :=
  if n.leadingExponent < -4 ∨ 16 ≤ n.leadingExponent then n.scientific
  else
    let (whole, fraction) := n.parts
    whole ++ "." ++ if fraction.isEmpty then "0" else fraction

end Numeral

/-- A double in a given layout of its shortest digits: a sign stands before every negative number
and before negative zero, and words stand for what is not finite. -/
def render (layout : Numeral → String) (x : Float) : String :=
  let bits := x.toBits.toNat
  let size := bits % Nat.pow 2 63
  let sign := if bits < Nat.pow 2 63 then "" else "-"
  if 0x7FF0000000000000 < size then "NaN"
  else if size = 0x7FF0000000000000 then sign ++ "inf"
  else if size = 0 then sign ++ layout ⟨0, 0⟩
  else sign ++ layout (Target.ofBits size).shortest

def text (x : Float) : String := render Numeral.positional x

/-- The text of a double where it has to differ from that of an integer. -/
def detailedText (x : Float) : String := render Numeral.detailed x

end Decimal
end ScriptEngine
