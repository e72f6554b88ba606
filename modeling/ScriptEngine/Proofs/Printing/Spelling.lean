/-
How tokens are written.

A token can be spelled by a word that is always the same, a name, a numeral, or a string
literal, which may stand in quotes of either kind.  Every spelling is one token by itself
(`Spelled.token`).
-/
import ScriptEngine.Proofs.Printing.Words
import ScriptEngine.Proofs.Token.Numerals

namespace ScriptEngine
namespace Printing

open Lexer

/-! ## Words that are tokens -/

/-- A token with a space before it. -/
structure IsToken (w : Piece) : Prop where
  gap : w.gap = [' ']
  lexes : w.Lexes []

theorem skips_space : Skips [' '] :=
  skips_of_blank fun c hc => by rw [List.mem_singleton.mp hc]; decide

/-- The marks that are neither operators nor keywords. -/
def marks : List (String × TokenKind) :=
  [("(", .leftParen), (")", .rightParen), (",", .comma), (".", .dot), (";", .semicolon),
   ("=", .equal)]

/-- The operators that are no keywords. -/
def operators : List (String × TokenKind) :=
  [("+", .plus), ("-", .minus), ("*", .star), ("/", .slash), ("==", .equalEqual),
   ("<>", .lessGreater), ("<", .less), ("<=", .lessEqual), (">", .greater), (">=", .greaterEqual)]

/-- The words that are always written the same way. -/
def fixed : List (String × TokenKind) := marks ++ operators ++ TokenKind.keywords

theorem word_token {kind : TokenKind} {text : String} {c : Char} {cs : List Char}
    (htext : text.toList = c :: cs) (hblank : Text.isBlank c = false)
    (hcomment : ¬ (c = '/' ∧ cs.head? = some '/')) (hscans : Scans (c :: cs) kind text []) :
    IsToken (word kind text) := by
  refine ⟨rfl, skips_space, ?_, ?_, ?_⟩
  · simp [word, htext]
  · simp only [word, htext, List.append_nil]
    exact ⟨hblank, hcomment⟩
  · simp only [word, htext]
    exact hscans

theorem fixed_token {text : String} {kind : TokenKind} (h : (text, kind) ∈ fixed) :
    IsToken (word kind text) := by
  simp only [fixed, marks, operators, TokenKind.keywords, List.cons_append, List.nil_append,
    List.mem_cons, Prod.mk.injEq, List.not_mem_nil, or_false] at h
  rcases h with ⟨rfl, rfl⟩ | ⟨rfl, rfl⟩ | ⟨rfl, rfl⟩ | ⟨rfl, rfl⟩ | ⟨rfl, rfl⟩ | ⟨rfl, rfl⟩ |
      ⟨rfl, rfl⟩ | ⟨rfl, rfl⟩ | ⟨rfl, rfl⟩ | ⟨rfl, rfl⟩ | ⟨rfl, rfl⟩ | ⟨rfl, rfl⟩ | ⟨rfl, rfl⟩ |
      ⟨rfl, rfl⟩ | ⟨rfl, rfl⟩ | ⟨rfl, rfl⟩ | ⟨rfl, rfl⟩ | ⟨rfl, rfl⟩ | ⟨rfl, rfl⟩ | ⟨rfl, rfl⟩ |
      ⟨rfl, rfl⟩ | ⟨rfl, rfl⟩ | ⟨rfl, rfl⟩ | ⟨rfl, rfl⟩ | ⟨rfl, rfl⟩ | ⟨rfl, rfl⟩ | ⟨rfl, rfl⟩
  all_goals exact word_token rfl (by decide) (by decide) fun _ => rfl

theorem numeral_token {text : String} (h : IsNumeral text) : IsToken (word .number text) := by
  have hfaultless : ∀ s ∈ (TokenStream.ofString text).tokens, s.fault = none := by
    intro s hs
    rw [h] at hs
    rw [List.mem_singleton.mp hs]
  obtain ⟨pieces, tail, hcuts⟩ : ∃ pieces tail, Cuts (Cursor.body text) pieces tail :=
    ⟨_, _, cuts_cut hfaultless⟩
  have htokens := TokenStream.ofString_cuts hcuts
  rw [h] at htokens
  generalize Cursor.body text = cs at hcuts
  cases hcuts with
  | stop => cases htokens
  | @piece piece pieces rest tail hlexes hrest =>
    cases pieces with
    | cons => simp [placed] at htokens
    | nil =>
      simp only [placed, List.map_cons, List.map_nil, List.cons.injEq, Scanned.mk.injEq,
        Token.mk.injEq] at htokens
      obtain ⟨⟨⟨hkind, hlexeme, -⟩, -⟩, -⟩ := htokens
      have hspan := hlexes.lexeme (by rw [← hkind]; decide)
      have htext : text.toList = piece.span := by rw [hlexeme, hspan, String.toList_ofList]
      have hends : piece.Lexes [] := hlexes.stable (.inr fun c hc => by cases hc)
      have hword : word .number text = piece.behind [' '] := by
        rw [word, htext, hkind, hlexeme, Piece.behind]
      rw [hword]
      exact ⟨rfl, skips_space, hends.nonempty, hends.solid, hends.scans⟩

theorem isNameStart_solid {c : Char} (h : isNameStart c = true) :
    Text.isBlank c = false ∧ c ≠ '/' := by
  constructor
  · cases hblank : Text.isBlank c with
    | false => rfl
    | true =>
      have hpart := isBlank_isNamePart hblank
      simp [isNamePart, h] at hpart
  · rintro rfl
    revert h
    decide

theorem name_token {name : String} (h : IsName name) : IsToken (word .identifier name) := by
  obtain ⟨⟨c, cs, hname, hc, hcs⟩, hkeyword⟩ := h
  obtain ⟨hblank, hslash⟩ := isNameStart_solid hc
  have htext : String.ofList (c :: cs) = name := by rw [← hname, String.ofList_toList]
  have hscans : Scans (c :: cs) _ _ [] := scans_name hc hcs nofun
  rw [htext, hkeyword] at hscans
  exact word_token hname hblank (fun hcomment => hslash hcomment.1) hscans

/-! ## String literals -/

/-- The written form of a character in a string literal between the given quotes. -/
def escapeIn (quote : Char) : Char → List Char
  | '\n' => ['\\', 'n']
  | '\\' => ['\\', '\\']
  | c => if c = quote then ['\\', c] else [c]

/-- A string literal between the given quotes. -/
def literalIn (quote : Char) (value : List Char) : List Char :=
  quote :: (value.flatMap (escapeIn quote) ++ [quote])

def IsQuote (c : Char) : Prop := c = '\x22' ∨ c = '\x27'

/-- A string literal denotes the characters that were written in it. -/
theorem scanString_written {quote : Char} (hq : IsQuote quote) (start l : Location)
    (value : List Char) :
    scanString start quote l (value.flatMap (escapeIn quote) ++ [quote]) =
      ⟨value, ⟨l.after (value.flatMap (escapeIn quote) ++ [quote]), []⟩, none⟩ := by
  have hline : quote ≠ '\n' := by rcases hq with rfl | rfl <;> decide
  have hback : '\\' ≠ quote := by rcases hq with rfl | rfl <;> decide
  have hescaped : escaped? quote = some quote := by rcases hq with rfl | rfl <;> rfl
  induction value generalizing l with
  | nil => exact scanString_close hline []
  | cons c value ih =>
    have push : ∀ e, escaped? e = some c → e ≠ '\n' → escapeIn quote c = ['\\', e] →
        scanString start quote l ((c :: value).flatMap (escapeIn quote) ++ [quote]) =
          ⟨c :: value, ⟨l.after ((c :: value).flatMap (escapeIn quote) ++ [quote]), []⟩, none⟩ := by
      intro e he hline hc
      rw [List.flatMap_cons, hc]
      show scanString start quote l
        ('\\' :: e :: (value.flatMap (escapeIn quote) ++ [quote])) = _
      rw [scanString_escape hback hline he, ih]
      rfl
    by_cases hnewline : c = '\n'
    · subst hnewline
      exact push 'n' rfl (by decide) rfl
    by_cases hescape : c = '\\'
    · subst hescape
      exact push '\\' rfl (by decide) rfl
    by_cases hquote : c = quote
    · subst hquote
      exact push c hescaped hline (by simp [escapeIn])
    have hc : escapeIn quote c = [c] := by simp [escapeIn, hquote]
    rw [List.flatMap_cons, hc]
    show scanString start quote l (c :: (value.flatMap (escapeIn quote) ++ [quote])) = _
    rw [scanString_plain hnewline hquote hescape, ih]
    rfl

theorem literalIn_token {quote : Char} (hq : IsQuote quote) (value : String) :
    IsToken ⟨[' '], literalIn quote value.toList, .string, value⟩ := by
  have hvalue : String.ofList value.toList = value := String.ofList_toList
  have hquoted : ∀ l cs, scanToken l (quote :: cs) = scanQuoted l quote cs := by
    rcases hq with rfl | rfl <;> exact fun _ _ => rfl
  have hblank : Text.isBlank quote = false := by rcases hq with rfl | rfl <;> decide
  have hslash : quote ≠ '/' := by rcases hq with rfl | rfl <;> decide
  refine ⟨rfl, skips_space, ?_, ⟨hblank, fun h => hslash h.1⟩, fun l => ?_⟩
  · simp [literalIn]
  · show scanToken l (quote :: (value.toList.flatMap (escapeIn quote) ++ [quote] ++ [])) = _
    rw [List.append_nil, hquoted]
    simp only [scanQuoted, scanString_written hq, hvalue]
    rfl

theorem literal_token (value : String) : IsToken (literal value) := by
  have hescape : escapeIn '\x22' = escape := by
    funext c
    unfold escapeIn escape
    split
    · rfl
    · rfl
    · split <;> simp_all
  have hquote : IsQuote '\x22' := .inl rfl
  have htoken := literalIn_token hquote value
  rw [literalIn, hescape] at htoken
  exact htoken

/-! ## Tokens and their spellings -/

/-- How a token can be written: a word that is always the same, a name, a numeral, or a string
literal in quotes of either kind. -/
inductive Spelled : TokenKind → String → List Char → Prop
  | fixed {text : String} {kind : TokenKind} : (text, kind) ∈ fixed →
      Spelled kind text text.toList
  | name {name : String} : IsName name → Spelled .identifier name name.toList
  | number {text : String} : Numeral text.toList → Spelled .number text text.toList
  | string {quote : Char} (value : String) : IsQuote quote →
      Spelled .string value (literalIn quote value.toList)

theorem Spelled.of_fixed {kind : TokenKind} {span : List Char}
    (h : (String.ofList span, kind) ∈ Printing.fixed) :
    Spelled kind (String.ofList span) span := by
  have hspelled := Spelled.fixed h
  rwa [String.toList_ofList] at hspelled

/-- What is written is scanned as the token. -/
theorem Spelled.token {kind : TokenKind} {lexeme : String} {span : List Char}
    (h : Spelled kind lexeme span) : IsToken ⟨[' '], span, kind, lexeme⟩ := by
  cases h with
  | fixed hfixed => exact fixed_token hfixed
  | name hname => exact name_token hname
  | number hnumber =>
    obtain ⟨c, cs, htext, hblank, hslash⟩ := hnumber.solid
    have hscans : Scans lexeme.toList .number _ [] := hnumber.scans nofun
    rw [String.ofList_toList, htext] at hscans
    exact word_token htext hblank (fun hcomment => hslash hcomment.1) hscans
  | string _ hquote => exact literalIn_token hquote lexeme

end Printing
end ScriptEngine
