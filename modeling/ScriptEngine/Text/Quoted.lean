/-
Quoted text, as listings and dumps show it.

A text stands in double quotes.  A quote, a backslash and the usual controls
have escapes of two characters; every other character that does not show by
itself, such as a control, a blank other than the space, a format character or
a mark that combines with its neighbour, is written by its number.
-/
import ScriptEngine.Text.Blank

namespace ScriptEngine
namespace Text

/-- Ranges of characters that do not show by themselves: controls, blanks, format characters,
combining marks and private characters.  They are those in use, and not all there are: most marks
of single scripts that extend the character before them (U+0901 for one) and most numbers that stand
for no character (U+0378 for one) are in none of the ranges, and such a character is written as it
is. -/
def hiddenRanges : List (Nat × Nat) :=
  [(0x0, 0x1F), (0x7F, 0xA0), (0xAD, 0xAD), (0x300, 0x36F), (0x483, 0x489), (0x591, 0x5BD),
   (0x600, 0x605), (0x61C, 0x61C), (0x64B, 0x65F), (0x1680, 0x1680), (0x180B, 0x180F),
   (0x1AB0, 0x1ACE), (0x1DC0, 0x1DFF), (0x2000, 0x200F), (0x2028, 0x202F), (0x205F, 0x206F),
   (0x20D0, 0x20F0), (0x3000, 0x3000), (0xE000, 0xF8FF), (0xFE00, 0xFE0F), (0xFE20, 0xFE2F),
   (0xFEFF, 0xFEFF), (0xFFF0, 0xFFFB), (0xFFFE, 0xFFFF), (0xE0000, 0xE0FFF), (0xF0000, 0x10FFFF)]

/-- The digits of a number in base sixteen, in small letters. -/
def hexadecimal (n : Nat) : String := String.ofList (Nat.toDigits 16 n)

/-- The written form of one character inside quotes. -/
def quoteChar (c : Char) : String :=
  match c with
  | '\x22' => "\\\""
  | '\\' => "\\\\"
  | '\n' => "\\n"
  | '\r' => "\\r"
  | '\t' => "\\t"
  | '\x00' => "\\0"
  | c =>
    if inRanges hiddenRanges c.toNat then "\\u\x7b" ++ hexadecimal c.toNat ++ "\x7d"
    else c.toString

def quote (text : String) : String :=
  "\"" ++ String.join (text.toList.map quoteChar) ++ "\""

end Text
end ScriptEngine
