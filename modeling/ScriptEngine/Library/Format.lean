/-
Format strings.

A format string is cut from the left into pieces: a doubled brace stands for one
brace, an empty pair of braces takes the next argument, any other brace is
stray, and every other character stands for itself.  Formatting fills the pieces
in order; a stray brace and a wrong number of arguments are refused.  A second
scan, which steps over stray braces, counts the placeholders for the error.
-/
import ScriptEngine.Native.Error

namespace ScriptEngine
namespace Format

/-- A piece of a format string. -/
inductive Piece where
  /-- A character of the result. -/
  | char (c : Char)
  /-- The place of an argument. -/
  | slot
  /-- A brace that is neither doubled nor part of a pair. -/
  | stray (brace : Char)
  deriving DecidableEq, Repr

/-- The pieces of a format string. -/
def pieces : List Char → List Piece
  | [] => []
  | '\x7b' :: '\x7b' :: rest => .char '\x7b' :: pieces rest
  | '\x7d' :: '\x7d' :: rest => .char '\x7d' :: pieces rest
  | '\x7b' :: '\x7d' :: rest => .slot :: pieces rest
  | '\x7b' :: rest => .stray '\x7b' :: pieces rest
  | '\x7d' :: rest => .stray '\x7d' :: pieces rest
  | c :: rest => .char c :: pieces rest

/-- The number of placeholders of a format string; a stray brace is stepped over. -/
def placeholders : List Char → Nat
  | [] => 0
  | '\x7b' :: '\x7b' :: rest => placeholders rest
  | '\x7d' :: '\x7d' :: rest => placeholders rest
  | '\x7b' :: '\x7d' :: rest => placeholders rest + 1
  | _ :: rest => placeholders rest

/-- Fills the pieces with the texts of the arguments; the first piece that does not fit decides the
error. -/
def fill : List Piece → List String → Except (Option Char) (List Char)
  | [], [] => .ok []
  | [], _ :: _ => .error none
  | .char c :: ps, args => (fill ps args).map (c :: ·)
  | .slot :: ps, a :: args => (fill ps args).map (a.toList ++ ·)
  | .slot :: _, [] => .error none
  | .stray brace :: _, _ => .error (some brace)

/-- The text of a format string with its arguments. -/
def format (template : String) (args : List String) : Except FormatError String :=
  match fill (pieces template.toList) args with
  | .ok text => .ok (String.ofList text)
  | .error (some brace) => .error (.unmatchedBrace brace template)
  | .error none =>
    .error (.argumentCount template (placeholders template.toList) args.length)

end Format
end ScriptEngine
