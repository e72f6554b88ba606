/-
Function keys and their mangled names.

A function is known by its name and by how many arguments it takes.  The mangled
name writes both into one text: a mark, the length of the name in bytes, the
name, and for a fixed number of arguments a bar and that number.  The length
field lets a name hold bars and digits.
-/
import ScriptEngine.Decimal.Reading

namespace ScriptEngine

/-- How many arguments a function takes. -/
inductive Arity where
  | fixed (count : Nat)
  | variadic
  deriving DecidableEq, Repr

namespace Arity

/-- Whether a call with the given number of arguments is accepted. -/
def accepts : Arity → Nat → Bool
  | fixed n, count => n = count
  | variadic, _ => true

/-- The number of arguments, or a word for any number. -/
def text : Arity → String
  | fixed n => toString n
  | variadic => "variadic"

def describe : Arity → String
  | fixed n => "Fixed(" ++ toString n ++ ")"
  | variadic => "Variadic"

/-- The fixed number of arguments, if there is one. -/
def count? : Arity → Option Nat
  | fixed n => some n
  | variadic => none

end Arity

/-- A name with the number of arguments. -/
structure FunctionKey where
  name : String
  arity : Arity
  deriving DecidableEq, Repr

/-- The written form of a key. -/
def FunctionKey.text (k : FunctionKey) : String :=
  match k.arity with
  | .fixed n => k.name ++ "/" ++ toString n
  | .variadic => k.name ++ "/..."

/-- Why a name cannot be mangled, or a text is no mangled name. -/
inductive MangleError where
  | emptyName
  | leadingDigit (name : String)
  | invalidPrefix (input : String)
  | invalidLength (input : String)
  | lengthMismatch (input : String) (expected available : Nat)
  | truncatedTrailer (input : String)
  | invalidTrailer (input : String)
  deriving DecidableEq, Repr

namespace MangleError

def name : MangleError → String
  | emptyName => "EmptyName"
  | leadingDigit _ => "LeadingDigit"
  | invalidPrefix _ => "InvalidPrefix"
  | invalidLength _ => "InvalidLength"
  | lengthMismatch .. => "LengthMismatch"
  | truncatedTrailer _ => "TruncatedTrailer"
  | invalidTrailer _ => "InvalidTrailer"

def message : MangleError → String
  | emptyName => "cannot mangle an empty name"
  | leadingDigit name => "cannot mangle '" ++ name ++ "': names must not start with a digit"
  | invalidPrefix input => refuse input "missing '_SR' prefix"
  | invalidLength input => refuse input "length field is not numeric"
  | lengthMismatch input expected available =>
    refuse input ("length " ++ toString expected ++ " exceeds the " ++ toString available ++
      " remaining characters")
  | truncatedTrailer input => refuse input "truncated arity trailer"
  | invalidTrailer input => refuse input "malformed arity trailer"
where
  /-- Says that a text is no mangled name, and why. -/
  refuse (input reason : String) : String := "'" ++ input ++ "' is not a mangled name: " ++ reason

end MangleError

namespace FunctionKey

open Decimal (isDigit ofDigits)

/-- The mark that opens a mangled name. -/
def mark : List Char := ['_', 'S', 'R']

/-- The length of a text in bytes. -/
def byteCount : List Char → Nat
  | [] => 0
  | c :: cs => c.utf8Size + byteCount cs

def digitsOf (n : Nat) : List Char := (toString n).toList

/-- What follows the name: nothing, or a bar and the number of arguments. -/
def trailer : Arity → List Char
  | .fixed n => '_' :: digitsOf n
  | .variadic => []

/-- The characters of the mangled name of any key. -/
def encode (name : List Char) (arity : Arity) : List Char :=
  mark ++ (digitsOf (byteCount name) ++ (name ++ trailer arity))

/-- The mangled name.  A name may not be empty, and it may not begin with a digit, since the
length stands right before it. -/
def mangle (k : FunctionKey) : Except MangleError String :=
  match k.name.toList with
  | [] => .error .emptyName
  | c :: rest =>
    if isDigit c then .error (.leadingDigit k.name)
    else .ok (String.ofList (encode (c :: rest) k.arity))

/-- The first numbers that a size cannot hold. -/
def sizeLimit : Nat := Nat.pow 2 64

/-- The size that a run of digits names.  There has to be a digit, and the size has to fit. -/
def readSize? (digits : List Char) : Option Nat :=
  if digits.isEmpty ∨ sizeLimit ≤ ofDigits digits then none else some (ofDigits digits)

/-- Splits off a text of exactly the given number of bytes, if a character ends there. -/
def splitBytes? : Nat → List Char → Option (List Char × List Char)
  | 0, cs => some ([], cs)
  | _ + 1, [] => none
  | n + 1, c :: cs =>
    if c.utf8Size ≤ n + 1 then
      (splitBytes? (n + 1 - c.utf8Size) cs).map fun (front, back) => (c :: front, back)
    else none

/-- The arity that a trailer stands for. -/
def readTrailer (input : String) : List Char → Except MangleError Arity
  | [] => .ok .variadic
  | ['_'] => .error (.truncatedTrailer input)
  | '_' :: digits =>
    match if digits.all isDigit then readSize? digits else none with
    | some n => .ok (.fixed n)
    | none => .error (.invalidTrailer input)
  | _ => .error (.invalidTrailer input)

/-- The key that a mangled name stands for. -/
def demangle (input : String) : Except MangleError FunctionKey :=
  match input.toList with
  | '_' :: 'S' :: 'R' :: rest =>
    match readSize? (rest.takeWhile isDigit) with
    | none | some 0 => .error (.invalidLength input)
    | some length =>
      let body := rest.dropWhile isDigit
      match splitBytes? length body with
      | none => .error (.lengthMismatch input length (byteCount body))
      | some (name, back) =>
        (readTrailer input back).map fun arity => ⟨String.ofList name, arity⟩
  | _ => .error (.invalidPrefix input)

end FunctionKey
end ScriptEngine
