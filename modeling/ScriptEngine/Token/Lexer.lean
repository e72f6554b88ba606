/-
From characters to tokens.

Scanning never stops at a fault: a text that forms no token becomes an invalid
token with its fault, and the scan goes on behind it.  Each scan takes a
non-empty run of characters off the text and leaves the rest, so the number of
characters bounds the number of tokens (`TokenStream.ofCursor`).
-/
import ScriptEngine.Decimal.Reading
import ScriptEngine.Token.Cursor

namespace ScriptEngine
namespace Lexer

open Decimal (isDigit)

/-- Whether a name can begin with the character. -/
def isNameStart (c : Char) : Bool := ('a' ≤ c ∧ c ≤ 'z') ∨ ('A' ≤ c ∧ c ≤ 'Z') ∨ c = '_'

/-- Whether a name can go on with the character. -/
def isNamePart (c : Char) : Bool := isNameStart c ∨ isDigit c

/-! ## Gaps

A gap is what stands between two tokens: blanks, and comments from two slashes
to the end of the line.  A comment leaves its newline, which is a blank. -/

mutual

/-- The cursor behind the gap that a text begins with. -/
def skipGap (l : Location) : List Char → Cursor
  | [] => ⟨l, []⟩
  | '/' :: '/' :: rest => skipComment (l.step '/' |>.step '/') rest
  | c :: rest => if Text.isBlank c then skipGap (l.step c) rest else ⟨l, c :: rest⟩

/-- The cursor behind the rest of a comment and the gap that follows it. -/
def skipComment (l : Location) : List Char → Cursor
  | [] => ⟨l, []⟩
  | c :: rest => if c = '\n' then skipGap (l.step c) rest else skipComment (l.step c) rest

end

/-! ## Numbers -/

/-- The digits of a number with its point, and the text behind them. -/
def splitMantissa (cs : List Char) : List Char × List Char :=
  match cs.dropWhile isDigit with
  | '.' :: rest => (cs.takeWhile isDigit ++ '.' :: rest.takeWhile isDigit, rest.dropWhile isDigit)
  | rest => (cs.takeWhile isDigit, rest)

/-- The sign that an exponent may begin with, and the text behind it. -/
def splitSign : List Char → List Char × List Char
  | '+' :: rest => (['+'], rest)
  | '-' :: rest => (['-'], rest)
  | rest => ([], rest)

/-- The exponent that may follow a mantissa, and the text behind it.  The flag tells whether the
exponent has the digits it needs. -/
def splitExponent : List Char → List Char × List Char × Bool
  | [] => ([], [], true)
  | mark :: rest =>
    if mark = 'e' ∨ mark = 'E' then
      let (sign, digits) := splitSign rest
      (mark :: sign ++ digits.takeWhile isDigit, digits.dropWhile isDigit,
        !(digits.takeWhile isDigit).isEmpty)
    else ([], mark :: rest, true)

/-! ## Strings -/

/-- What the rest of a string literal denotes, the cursor behind it, and its fault. -/
structure StringBody where
  contents : List Char
  cursor : Cursor
  fault : Option LexError

namespace StringBody

def push (c : Char) (b : StringBody) : StringBody := { b with contents := c :: b.contents }

/-- Notes an unknown escape.  It precedes the faults of the text behind it, but a literal that
does not end has that fault alone. -/
def note (fault : LexError) (b : StringBody) : StringBody :=
  match b.fault with
  | some (.unterminatedString _) => b
  | _ => { b with fault := some fault }

end StringBody

/-- The character that an escape denotes. -/
def escaped? : Char → Option Char
  | 'n' => some '\n'
  | 't' => some '\t'
  | '\\' => some '\\'
  | '\x27' => some '\x27'
  | '\x22' => some '\x22'
  | _ => none

/-- The rest of a string literal that began at `start` with the given quote.  A literal ends at
that quote; it may not reach the end of its line. -/
def scanString (start : Location) (quote : Char) (l : Location) : List Char → StringBody
  | [] => ⟨[], ⟨l, []⟩, some (.unterminatedString start)⟩
  | c :: rest =>
    if c = '\n' then ⟨[], ⟨l, c :: rest⟩, some (.unterminatedString start)⟩
    else if c = quote then ⟨[], ⟨l.step c, rest⟩, none⟩
    else if c = '\\' then
      match rest with
      | [] => ⟨[], ⟨l.step c, []⟩, some (.unterminatedString start)⟩
      | e :: more =>
        if e = '\n' then ⟨[], ⟨l.step c, e :: more⟩, some (.unterminatedString start)⟩
        else
          match escaped? e with
          | some d => (scanString start quote (l.step c |>.step e) more).push d
          | none => (scanString start quote (l.step c |>.step e) more).note (.invalidEscape e l)
    else (scanString start quote (l.step c) rest).push c

/-! ## Tokens -/

def covering (kind : TokenKind) (start : Location) (span rest : List Char) : Scanned × Cursor :=
  (⟨⟨kind, String.ofList span, start⟩, none⟩, ⟨start.after span, rest⟩)

/-- An invalid token that covers the given characters. -/
def faulty (fault : LexError) (start : Location) (span rest : List Char) : Scanned × Cursor :=
  (⟨⟨.invalid, String.ofList span, start⟩, some fault⟩, ⟨start.after span, rest⟩)

/-- A number: digits, an optional point with digits, an optional exponent. -/
def scanNumber (start : Location) (cs : List Char) : Scanned × Cursor :=
  let (mantissa, rest) := splitMantissa cs
  let (exponent, rest, complete) := splitExponent rest
  let span := mantissa ++ exponent
  if complete then covering .number start span rest
  else faulty (.invalidNumber (String.ofList span) start) start span rest

def scanName (start : Location) (cs : List Char) : Scanned × Cursor :=
  let span := cs.takeWhile isNamePart
  covering ((TokenKind.ofKeyword? (String.ofList span)).getD .identifier) start span
    (cs.dropWhile isNamePart)

/-- A string literal, whose text is what it denotes. -/
def scanQuoted (start : Location) (quote : Char) (cs : List Char) : Scanned × Cursor :=
  let body := scanString start quote (start.step quote) cs
  let kind := if body.fault.isSome then .invalid else .string
  (⟨⟨kind, String.ofList body.contents, start⟩, body.fault⟩, body.cursor)

/-- An operator or a delimiter.  The longest one wins. -/
def scanOperator (start : Location) : List Char → Scanned × Cursor
  | '=' :: '=' :: rest => covering .equalEqual start ['=', '='] rest
  | '>' :: '=' :: rest => covering .greaterEqual start ['>', '='] rest
  | '<' :: '=' :: rest => covering .lessEqual start ['<', '='] rest
  | '<' :: '>' :: rest => covering .lessGreater start ['<', '>'] rest
  | '=' :: rest => covering .equal start ['='] rest
  | '>' :: rest => covering .greater start ['>'] rest
  | '<' :: rest => covering .less start ['<'] rest
  | '(' :: rest => covering .leftParen start ['('] rest
  | ')' :: rest => covering .rightParen start [')'] rest
  | ',' :: rest => covering .comma start [','] rest
  | '.' :: rest => covering .dot start ['.'] rest
  | ';' :: rest => covering .semicolon start [';'] rest
  | '+' :: rest => covering .plus start ['+'] rest
  | '-' :: rest => covering .minus start ['-'] rest
  | '*' :: rest => covering .star start ['*'] rest
  | '/' :: rest => covering .slash start ['/'] rest
  | c :: rest => faulty (.unexpectedCharacter c start) start [c] rest
  | [] => (⟨.eof start, none⟩, ⟨start, []⟩)

/-- Whether a number begins here: with a digit, or with a point before a digit. -/
def startsNumber : List Char → Bool
  | '.' :: d :: _ => isDigit d
  | c :: _ => isDigit c
  | [] => false

/-- The token that a text begins with, and the cursor behind it. -/
def scanToken (start : Location) (cs : List Char) : Scanned × Cursor :=
  match cs with
  | '\x22' :: rest => scanQuoted start '\x22' rest
  | '\x27' :: rest => scanQuoted start '\x27' rest
  | c :: _ =>
    if startsNumber cs then scanNumber start cs
    else if isNameStart c then scanName start cs
    else scanOperator start cs
  | [] => scanOperator start []

/-- The tokens from a cursor on, at most the given number of them. -/
def scanAll : Nat → Cursor → TokenStream
  | 0, c => ⟨[], (skipGap c.location c.rest).location⟩
  | budget + 1, c =>
    let gap := skipGap c.location c.rest
    if gap.rest.isEmpty then ⟨[], gap.location⟩
    else
      let (token, behind) := scanToken gap.location gap.rest
      let more := scanAll budget behind
      ⟨token :: more.tokens, more.finish⟩

end Lexer

namespace TokenStream

/-- The tokens from a cursor on.  Each takes at least one character, so the unread characters
bound their number. -/
def ofCursor (c : Cursor) : TokenStream := Lexer.scanAll c.rest.length c

def ofString (text : String) : TokenStream := ofCursor (Cursor.ofString text)

end TokenStream
end ScriptEngine
