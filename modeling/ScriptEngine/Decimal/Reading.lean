/-
Reading a double from its decimal text.

A text is an optional sign followed by a word for an infinity or for no number,
or by digits with an optional point and an optional exponent.  At least one
digit stands before or after the point, and an exponent has at least one digit.
The value is the double nearest to the numeral read.
-/

namespace ScriptEngine
namespace Decimal

def isDigit (c : Char) : Bool := '0' ≤ c ∧ c ≤ '9'

/-- The number that a run of digits names. -/
def ofDigits (cs : List Char) : Nat := cs.foldl (fun n c => 10 * n + (c.toNat - 48)) 0

/-- The double nearest to `digits * 10 ^ scale`.  A numeral beyond the range of doubles is decided
by its size alone, so that a huge exponent costs nothing. -/
def nearest (digits : Nat) (scale : Int) : Float :=
  let size : Int := (toString digits).length + scale
  if digits = 0 then 0.0
  else if 400 < size then Float.ofBits 0x7FF0000000000000
  else if size < -400 then 0.0
  else Float.ofScientific digits (scale < 0) scale.natAbs

/-- The exponent after a mantissa: none at the end of the text, else a mark, an optional sign and
digits up to the end. -/
def readExponent? : List Char → Option Int
  | [] => some 0
  | mark :: rest =>
    if mark = 'e' ∨ mark = 'E' then
      let (negative, digits) := match rest with
        | '-' :: r => (true, r)
        | '+' :: r => (false, r)
        | r => (false, r)
      if digits.isEmpty ∨ !digits.all isDigit then none
      else some (if negative then -(ofDigits digits : Int) else ofDigits digits)
    else none

/-- An unsigned numeral up to the end of the text. -/
def readNumeral? (cs : List Char) : Option Float :=
  let whole := cs.takeWhile isDigit
  let (fraction, rest) := match cs.dropWhile isDigit with
    | '.' :: r => (r.takeWhile isDigit, r.dropWhile isDigit)
    | r => ([], r)
  if whole.isEmpty ∧ fraction.isEmpty then none
  else
    (readExponent? rest).map fun e => nearest (ofDigits (whole ++ fraction)) (e - fraction.length)

/-- An unsigned number: a word, in any mix of letter cases, or a numeral. -/
def readUnsigned? (cs : List Char) : Option Float :=
  match String.ofList (cs.map Char.toLower) with
  | "inf" | "infinity" => some (Float.ofBits 0x7FF0000000000000)
  | "nan" => some (Float.ofBits 0x7FF8000000000000)
  | _ => readNumeral? cs

def read? (text : String) : Option Float :=
  match text.toList with
  | '-' :: rest => (readUnsigned? rest).map (fun x => -x)
  | '+' :: rest => readUnsigned? rest
  | cs => readUnsigned? cs

end Decimal
end ScriptEngine
