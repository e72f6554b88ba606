/-
Gaps inside parentheses.

Of two texts that differ in one gap only, the tokens that stand behind the gap are
moved, but each is still as many lines behind the token before it as it was
(`follows_moved`).  So the gap matters at the token behind it alone, and there only
if the parser asks whether that token begins a line: outside the parentheses that it
counts, at a minus or at a parenthesis that could go on with the expression before it
(`parse_respace`).

The parentheses of a condition are not counted.  A minus that begins a line inside
them ends the expression before it, which `parse_condition_broken` shows.
-/
import ScriptEngine.Proofs.Parser.Kinds
import ScriptEngine.Proofs.Parser.Lockstep
import ScriptEngine.Proofs.Token.Pieces

namespace ScriptEngine
namespace Parser

open Lexer (Piece Cuts textOf placed)

/-- The setting behind the tokens of pieces. -/
def Setting.behind (σ : Setting) (pieces : List Piece) : Setting :=
  pieces.foldl (fun τ piece => τ.after piece.kind) σ

/-- The tokens of pieces that begin at a place, as the lexer gives them. -/
def scanned (l : Location) (pieces : List Piece) : List Scanned :=
  (placed l pieces).map fun t => ⟨t, none⟩

theorem follows_moved {σ : Setting} {a b d : Nat} {l m : Location} (pieces : List Piece)
    (hl : l.line = a + d) (hm : m.line = b + d) :
    Follows nowhere σ a b (scanned l pieces) (scanned m pieces) := by
  induction pieces generalizing σ a b d l m with
  | nil => exact .nil
  | cons piece pieces ih =>
    refine .token rfl rfl rfl rfl (fun _ => ?_) (ih (d := piece.span.count '\n') ?_ ?_)
    · simp only [Location.after_line, hl, hm]
      omega
    · simp only [Piece.text, Location.after_append, Location.after_line]
    · simp only [Piece.text, Location.after_append, Location.after_line]

/-- A change of one gap is seen at the token behind it at most. -/
theorem follows_respaced {σ : Setting} {a : Nat} {l : Location} {gap : List Char} {piece : Piece}
    (left right : List Piece) (h : ¬ (σ.behind left).Exposed piece.kind) :
    Follows nowhere σ a a (scanned l (left ++ piece :: right))
      (scanned l (left ++ piece.behind gap :: right)) := by
  induction left generalizing σ a l with
  | nil =>
    refine .token rfl rfl rfl rfl (fun hexposed => absurd hexposed h)
      (follows_moved (d := piece.span.count '\n') right ?_ ?_)
    · simp only [Piece.text, Location.after_append, Location.after_line]
    · simp only [Piece.text, Piece.behind, Location.after_append, Location.after_line]
  | cons first left ih => exact .token rfl rfl rfl rfl (fun _ => Iff.rfl) (ih h)

/-- Another gap in a script that parses without an error changes nothing, unless the parser asks
whether the token behind the gap begins a line. -/
theorem parse_respace {text other : String} {left right : List Piece} {piece : Piece}
    {gap tail : List Char} (h : (Script.parse text).2.hasErrors = false)
    (hcuts : Cuts (Cursor.body text) (left ++ piece :: right) tail)
    (hgap : Lexer.Skips gap) (hne : gap ≠ []) (hblank : Lexer.Separated gap)
    (hother : Cursor.body other = textOf (left ++ piece.behind gap :: right) tail)
    (hexposed : ¬ (Setting.start.behind left).Exposed piece.kind) :
    (Script.parse other).2.hasErrors = false ∧
      SameButPlaces (Script.parse text).1.statements (Script.parse other).1.statements := by
  have hrespaced := hcuts.respace hgap hne hblank
  rw [← hother] at hrespaced
  have hfollows : Follows nowhere .start 1 1 (TokenStream.ofString text).tokens
      (TokenStream.ofString other).tokens := by
    rw [TokenStream.ofString_cuts hcuts, TokenStream.ofString_cuts hrespaced]
    exact follows_respaced left right hexposed
  obtain ⟨hclean, hsame⟩ := parse_mirrored hfollows h
  exact ⟨hclean, hsame.symm⟩

/-- Inside parentheses that group or that hold arguments, and anywhere before a token that cannot
go on with an expression, blanks can be replaced by any other blanks. -/
theorem parse_parenthesized {text other : String} {left right : List Piece} {piece : Piece}
    {gap tail : List Char} (h : (Script.parse text).2.hasErrors = false)
    (hcut : Lexer.cut (Cursor.body text) = (left ++ piece :: right, tail))
    (hinside : .group ∈ (Setting.start.behind left).parens ∨
      ¬ (Setting.start.behind left).Continues piece.kind)
    (hne : gap ≠ []) (hblank : ∀ c ∈ gap, Text.isBlank c = true)
    (hother : Cursor.body other = textOf (left ++ piece.behind gap :: right) tail) :
    (Script.parse other).2.hasErrors = false ∧
      SameButPlaces (Script.parse text).1.statements (Script.parse other).1.statements := by
  have hcuts := Lexer.cuts_cut (parse_faultless h)
  rw [hcut] at hcuts
  refine parse_respace h hcuts (Lexer.skips_of_blank hblank) hne
    (fun c hc => hblank c (List.mem_of_mem_head? hc)) hother fun hexposed => ?_
  rcases hinside with hgroup | hcontinues
  · have hcounted : 0 < (Setting.start.behind left).nesting := List.count_pos_iff.mpr hgroup
    have huncounted := hexposed.1
    omega
  · exact hcontinues hexposed.2

theorem parse_parenthesized_group :
    (Script.parse "(a- b)").2.hasErrors = false ∧
      (Script.parse "(a\n- b)").2.hasErrors = false ∧
      SameButPlaces (Script.parse "(a- b)").1.statements (Script.parse "(a\n- b)").1.statements := by
  have hclean : (Script.parse "(a- b)").2.hasErrors = false := by decide +kernel
  have hcut : Lexer.cut (Cursor.body "(a- b)") =
      ([⟨[], ['('], .leftParen, "("⟩, ⟨[], ['a'], .identifier, "a"⟩] ++ ⟨[], ['-'], .minus, "-"⟩ ::
        [⟨[' '], ['b'], .identifier, "b"⟩, ⟨[], [')'], .rightParen, ")"⟩], []) := by
    decide +kernel
  have hne : ['\n'] ≠ [] := by decide
  have hblank : ∀ c ∈ ['\n'], Text.isBlank c = true := by
    intro c hc
    rw [List.mem_singleton.mp hc]
    exact Text.isBlank_newline
  exact ⟨hclean, parse_parenthesized hclean hcut (by decide) hne hblank (by decide +kernel)⟩

/-- Inside the parentheses of a condition it is not so: a line break before the minus of
`if (a - b) c end` is an error. -/
theorem parse_condition_broken :
    ¬ ∀ (text other : String) (left right : List Piece) (piece : Piece) (gap tail : List Char),
      (Script.parse text).2.hasErrors = false →
      Lexer.cut (Cursor.body text) = (left ++ piece :: right, tail) →
      (Setting.start.behind left).parens ≠ [] →
      (∀ c ∈ piece.gap, Text.isBlank c = true) → gap = ['\n'] →
      Cursor.body other = textOf (left ++ piece.behind gap :: right) tail →
      (Script.parse other).2.hasErrors = false := by
  intro hclaim
  have hcut : Lexer.cut (Cursor.body "if (a - b) c end") =
      ([⟨[], ['i', 'f'], .if_, "if"⟩, ⟨[' '], ['('], .leftParen, "("⟩,
        ⟨[], ['a'], .identifier, "a"⟩] ++ ⟨[' '], ['-'], .minus, "-"⟩ ::
        [⟨[' '], ['b'], .identifier, "b"⟩, ⟨[], [')'], .rightParen, ")"⟩,
          ⟨[' '], ['c'], .identifier, "c"⟩, ⟨[' '], ['e', 'n', 'd'], .end_, "end"⟩], []) := by
    decide +kernel
  have hblank : ∀ c ∈ [' '], Text.isBlank c = true := by
    intro c hc
    rw [List.mem_singleton.mp hc]
    decide
  have hclean := hclaim _ "if (a\n- b) c end" _ _ _ _ _ (by decide +kernel) hcut (by decide)
    hblank rfl (by decide +kernel)
  revert hclean
  decide +kernel

end Parser
end ScriptEngine
