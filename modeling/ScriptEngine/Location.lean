/-
Positions in a script.

A position counts lines and characters from one.  Only a newline ends a line, so
the position after a text is a fold over its characters (`Location.after`), and
the lexer, the parser's line rule and every message read the same fold.

The counters have no upper end here.  They are those of 32 bits as long as no line and no
column reaches 2 ^ 32, so in every text of fewer than 2 ^ 32 - 1 characters; where the
narrow counters would overflow, these go on.
-/

namespace ScriptEngine

/-- The line and the column of a character, both counted from one. -/
structure Location where
  line : Nat
  column : Nat
  deriving DecidableEq, Repr

namespace Location

def start : Location := ⟨1, 1⟩

instance : Inhabited Location := ⟨start⟩

def nextColumn (l : Location) : Location := ⟨l.line, l.column + 1⟩

def nextLine (l : Location) : Location := ⟨l.line + 1, 1⟩

def step (l : Location) (c : Char) : Location :=
  if c = '\n' then l.nextLine else l.nextColumn

/-- The position after a text that begins at `l`. -/
def after (l : Location) (cs : List Char) : Location := cs.foldl step l

/-- Positions are ordered as the text is read: by line, then by column. -/
def compare (a b : Location) : Ordering :=
  (Ord.compare a.line b.line).then (Ord.compare a.column b.column)

instance : Ord Location := ⟨compare⟩

def text (l : Location) : String := toString l.line ++ ":" ++ toString l.column

instance : ToString Location := ⟨text⟩

@[simp] theorem after_nil (l : Location) : l.after [] = l := rfl

@[simp] theorem after_cons (l : Location) (c : Char) (cs : List Char) :
    l.after (c :: cs) = (l.step c).after cs := rfl

theorem after_append (l : Location) (cs ds : List Char) :
    l.after (cs ++ ds) = (l.after cs).after ds := List.foldl_append

end Location
end ScriptEngine
