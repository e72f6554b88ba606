/-
Outputs.

An output collects the texts that are written to it.  It may refuse a text, and
then it stays as it was.  It may also repeat what it collects on a device
outside, and a device can fail: then the write fails, but the text stays in the
output.
-/

namespace ScriptEngine

/-- A device that texts can be sent to.  It answers a text in view of all that was sent to it
before; how much of a text it takes before it fails is its own matter. -/
structure Device where
  sent : List String
  takes : (sent : List String) → (piece : String) → Bool

namespace Device

/-- A device that nothing was sent to and that never fails. -/
def reliable : Device := ⟨[], fun _ _ => true⟩

def send (d : Device) (piece : String) : Bool × Device :=
  (d.takes d.sent piece, { d with sent := d.sent ++ [piece] })

end Device

/-- An output: the text written so far, which texts it takes in view of it, and the device that it
is repeated on. -/
structure Output where
  text : String
  accepts : (written piece : String) → Bool
  echo : Option Device := none

namespace Output

/-- An empty output that takes every text. -/
def unlimited : Output := { text := "", accepts := fun _ _ => true }

/-- An empty output that takes texts up to the given number of bytes in all. -/
def limited (bytes : Nat) : Output :=
  { text := "", accepts := fun written piece => written.utf8ByteSize + piece.utf8ByteSize ≤ bytes }

/-- Adds a text, and sends it to the device if there is one. -/
def append (o : Output) (piece : String) : Output :=
  { o with text := o.text ++ piece, echo := o.echo.map fun d => (d.send piece).2 }

/-- Writes a text, and tells whether that went well.  What the output refuses is not sent
anywhere. -/
def write (o : Output) (piece : String) : Bool × Output :=
  if o.accepts o.text piece then (o.echo.all fun d => (d.send piece).1, o.append piece)
  else (false, o)

end Output
end ScriptEngine
