/-
Why a native function fails.

A value that does not fit a parameter has a conversion error; around it stand
the errors of the call itself.  Every error carries its causes, and its wording
is a function of them.
-/
import ScriptEngine.Decimal.Shortest

namespace ScriptEngine

/-- Why a value does not fit a native type. -/
inductive ConversionError where
  | typeMismatch (expected actual : String)
  | notAnInteger (value : Float)
  | classMismatch (expected actual : String)
  | alreadyBorrowed (className : String)
  deriving Repr

namespace ConversionError

def name : ConversionError → String
  | typeMismatch .. => "TypeMismatch"
  | notAnInteger _ => "NotAnInteger"
  | classMismatch .. => "ClassMismatch"
  | alreadyBorrowed _ => "AlreadyBorrowed"

def message : ConversionError → String
  | typeMismatch expected actual => "expected " ++ expected ++ ", found " ++ actual
  | notAnInteger value => "expected an integer, found " ++ Decimal.text value
  | classMismatch expected actual =>
    "expected instance of '" ++ expected ++ "', found instance of '" ++ actual ++ "'"
  | alreadyBorrowed className => "instance of '" ++ className ++ "' is already in use"

end ConversionError

/-- Why a format string does not fit its arguments. -/
inductive FormatError where
  | unmatchedBrace (brace : Char) (template : String)
  | argumentCount (template : String) (placeholders given : Nat)
  deriving DecidableEq, Repr

def FormatError.message : FormatError → String
  | .unmatchedBrace brace template =>
    "unmatched '" ++ brace.toString ++ "' in format string \"" ++ template ++ "\""
  | .argumentCount template placeholders given =>
    "format string \"" ++ template ++ "\" has " ++ toString placeholders ++
      " placeholder(s) but " ++ toString given ++ " argument(s) were given"

/-- Why a call of a native function fails. -/
inductive NativeError where
  | argumentCount (expected actual : Nat)
  | argument (index : Nat) (cause : ConversionError)
  | conversion (cause : ConversionError)
  | format (cause : FormatError)
  | output
  | failed (message : String)
  deriving Repr

namespace NativeError

def name : NativeError → String
  | argumentCount .. => "ArgumentCount"
  | argument _ cause => "Argument/" ++ cause.name
  | conversion cause => "Conversion/" ++ cause.name
  | format _ => "Format"
  | output => "Output"
  | failed _ => "Failed"

def message : NativeError → String
  | argumentCount expected actual =>
    "expected " ++ toString expected ++ " argument(s), got " ++ toString actual
  | argument index cause => "argument " ++ toString index ++ ": " ++ cause.message
  | conversion cause => cause.message
  | format cause => "format error: " ++ cause.message
  | output => "failed to write output"
  | failed message => message

end NativeError
end ScriptEngine
