/-
The layout of a script that parses is of no matter, but for one thing.

The outline of a script is what is left of its tokens when their places are
forgotten, except that it keeps which minuses and which opening parentheses stand on a
later line than the token before them.  Two scripts with one outline parse without an
error together, and to the same statements (`parse_layout`).  So blanks, comments and
line breaks before any other token can be changed at will.
-/
import ScriptEngine.Proofs.Parser.Respacing

namespace ScriptEngine
namespace Parser

open Lexer (Piece textOf)

/-- The outline of tokens that stand behind a token on the given line. -/
def outlineFrom (line : Nat) : List Token → List (TokenKind × String × Bool)
  | [] => []
  | t :: rest =>
    (t.kind, t.lexeme, decide ((t.kind = .minus ∨ t.kind = .leftParen) ∧ line < t.location.line)) ::
      outlineFrom t.location.line rest

/-- The kinds and the texts of tokens, and which minuses and opening parentheses stand on a later
line than the token before them. -/
def outline : List Token → List (TokenKind × String × Bool)
  | [] => []
  | t :: rest => (t.kind, t.lexeme, false) :: outlineFrom t.location.line rest

theorem Setting.Continues.kind {σ : Setting} {k : TokenKind} (h : σ.Continues k) :
    k = .minus ∨ k = .leftParen := by
  rcases h with ⟨hk, -⟩ | ⟨hk, -⟩
  · exact .inl hk
  · exact .inr hk

theorem follows_of_outlineFrom {σ : Setting} {a b : Nat} {ss ts : List Scanned}
    (h : outlineFrom a (ss.map (·.token)) = outlineFrom b (ts.map (·.token)))
    (hfault : ∀ t ∈ ts, t.fault = none) : Follows nowhere σ a b ss ts := by
  induction ss generalizing σ a b ts with
  | nil =>
    cases ts with
    | nil => exact .nil
    | cons t ts => cases h
  | cons s ss ih =>
    cases ts with
    | nil => cases h
    | cons t ts =>
      simp only [List.map_cons, outlineFrom, List.cons.injEq, Prod.mk.injEq] at h
      obtain ⟨⟨hkind, hlexeme, hline⟩, hrest⟩ := h
      refine .token hkind.symm hlexeme.symm rfl (hfault t List.mem_cons_self) (fun hexposed => ?_)
        (ih hrest fun u hu => hfault u (List.mem_cons_of_mem _ hu))
      rw [← hkind, decide_eq_decide] at hline
      simp only [hexposed.2.kind, true_and] at hline
      exact hline.symm

/-- At the start of a script no token could go on with an expression. -/
theorem follows_of_outline {ss ts : List Scanned}
    (h : outline (ss.map (·.token)) = outline (ts.map (·.token)))
    (hfault : ∀ t ∈ ts, t.fault = none) : Follows nowhere .start 1 1 ss ts := by
  cases ss with
  | nil =>
    cases ts with
    | nil => exact .nil
    | cons t ts => cases h
  | cons s ss =>
    cases ts with
    | nil => cases h
    | cons t ts =>
      simp only [List.map_cons, outline, List.cons.injEq, Prod.mk.injEq] at h
      obtain ⟨⟨hkind, hlexeme, -⟩, hrest⟩ := h
      refine .token hkind.symm hlexeme.symm rfl (hfault t List.mem_cons_self) (fun hexposed => ?_)
        (follows_of_outlineFrom hrest fun u hu => hfault u (List.mem_cons_of_mem _ hu))
      rcases hexposed.2 with ⟨-, hends⟩ | ⟨-, hname⟩
      · cases hends
      · cases hname

theorem outline_kinds (ts : List Token) : (outline ts).map (·.1) = ts.map (·.kind) := by
  have behind : ∀ line us, (outlineFrom line us).map (·.1) = us.map (·.kind) := by
    intro line us
    induction us generalizing line with
    | nil => rfl
    | cons u us ih => simp only [outlineFrom, List.map_cons, ih]
  cases ts with
  | nil => rfl
  | cons t ts => simp only [outline, List.map_cons, behind]

theorem faultless_of_outline {text other : String}
    (houtline : outline (tokensOf text) = outline (tokensOf other))
    (h : (Script.parse text).2.hasErrors = false) :
    ∀ t ∈ (TokenStream.ofString other).tokens, t.fault = none := by
  intro t ht
  refine Lexer.scanAll_fault _ _ t ht fun hinvalid => ?_
  have hkind : t.token.kind ∈ (tokensOf text).map (·.kind) := by
    rw [← outline_kinds, houtline, outline_kinds]
    exact List.mem_map_of_mem (List.mem_map_of_mem ht)
  obtain ⟨s, hs, hsame⟩ := List.mem_map.mp hkind
  exact (parse_block h).valid s hs (hsame.trans hinvalid)

/-- A script that parses without an error can be laid out anew: every script with its outline
parses without an error, to the same statements.  In particular the gap before a token that is
neither a minus nor an opening parenthesis can be any gap that begins with a blank. -/
theorem parse_layout {text other : String} (h : (Script.parse text).2.hasErrors = false) :
    (outline (tokensOf text) = outline (tokensOf other) →
      (Script.parse other).2.hasErrors = false ∧
        SameButPlaces (Script.parse text).1.statements (Script.parse other).1.statements) ∧
    (∀ left piece right gap tail,
      Lexer.cut (Cursor.body text) = (left ++ piece :: right, tail) →
      piece.kind ≠ .minus → piece.kind ≠ .leftParen →
      Lexer.Skips gap → gap ≠ [] → Lexer.Separated gap →
      Cursor.body other = textOf (left ++ piece.behind gap :: right) tail →
      (Script.parse other).2.hasErrors = false ∧
        SameButPlaces (Script.parse text).1.statements (Script.parse other).1.statements) := by
  constructor
  · intro houtline
    have hfollows := follows_of_outline houtline (faultless_of_outline houtline h)
    obtain ⟨hclean, hsame⟩ := parse_mirrored hfollows h
    exact ⟨hclean, hsame.symm⟩
  · intro left piece right gap tail hcut hminus hparen hgap hne hblank hother
    have hcuts := Lexer.cuts_cut (parse_faultless h)
    rw [hcut] at hcuts
    refine parse_respace h hcuts hgap hne hblank hother fun hexposed => ?_
    rcases hexposed.2.kind with hk | hk
    · exact hminus hk
    · exact hparen hk

theorem parse_layout_comment :
    (Script.parse "a\n-b c").2.hasErrors = false ∧
    ((Script.parse "a // x\n\n- b\nc").2.hasErrors = false ∧
      SameButPlaces (Script.parse "a\n-b c").1.statements
        (Script.parse "a // x\n\n- b\nc").1.statements) ∧
    ((Script.parse "a\n-b //c\n c").2.hasErrors = false ∧
      SameButPlaces (Script.parse "a\n-b c").1.statements
        (Script.parse "a\n-b //c\n c").1.statements) := by
  have hclean : (Script.parse "a\n-b c").2.hasErrors = false := by decide +kernel
  have hcut : Lexer.cut (Cursor.body "a\n-b c") =
      ([⟨[], ['a'], .identifier, "a"⟩, ⟨['\n'], ['-'], .minus, "-"⟩, ⟨[], ['b'], .identifier, "b"⟩] ++
        ⟨[' '], ['c'], .identifier, "c"⟩ :: [], []) := by
    decide +kernel
  have hgap : Lexer.Skips [' ', '/', '/', 'c', '\n', ' '] :=
    .blank (by decide) (.comment (.cons (by decide) (.newline (.blank (by decide) .nil))))
  refine ⟨hclean, (parse_layout hclean).1 (by decide +kernel), ?_⟩
  refine (parse_layout hclean).2 _ _ _ _ _ hcut (by decide) (by decide) hgap (by decide) ?_
    (by decide +kernel)
  rintro c ⟨⟩
  decide

end Parser
end ScriptEngine
