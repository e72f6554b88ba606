/-
A cursor over the characters of a script.

The cursor is the unread text together with its place.  Moving past a text moves
the place over exactly that text, so a cursor always knows where it stands.
-/
import ScriptEngine.Token

namespace ScriptEngine

structure Cursor where
  location : Location
  rest : List Char
  deriving DecidableEq, Repr

namespace Cursor

/-- The text of a script without the byte order mark that may open it. -/
def body (text : String) : List Char :=
  match text.toList with
  | '\uFEFF' :: rest => rest
  | cs => cs

def ofString (text : String) : Cursor := ⟨.start, body text⟩

def current? (c : Cursor) : Option Char := c.rest.head?

/-- Moves past one character; at the end the cursor stays. -/
def next (c : Cursor) : Cursor :=
  match c.rest with
  | [] => c
  | ch :: rest => ⟨c.location.step ch, rest⟩

def atLineEnd (c : Cursor) : Bool := c.current? = some '\n'

def atEnd (c : Cursor) : Bool := c.rest.isEmpty

end Cursor
end ScriptEngine
