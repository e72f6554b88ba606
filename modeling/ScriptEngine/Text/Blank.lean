/-
The blank characters of a script.

A character is blank exactly when it has the Unicode property White_Space, which
twenty-five characters have.
-/

namespace ScriptEngine
namespace Text

/-- The ranges of the blank characters, in ascending order, with both ends included. -/
def blankRanges : List (Nat × Nat) :=
  [(0x9, 0xD), (0x20, 0x20), (0x85, 0x85), (0xA0, 0xA0), (0x1680, 0x1680), (0x2000, 0x200A),
   (0x2028, 0x2029), (0x202F, 0x202F), (0x205F, 0x205F), (0x3000, 0x3000)]

/-- Whether one of the ranges holds a number. -/
def inRanges (ranges : List (Nat × Nat)) (n : Nat) : Bool :=
  ranges.any fun r => r.1 ≤ n ∧ n ≤ r.2

/-- Whether a character is blank. -/
def isBlank (c : Char) : Bool := inRanges blankRanges c.toNat

theorem isBlank_newline : isBlank '\n' = true := by decide

end Text
end ScriptEngine
