/-
A line that begins with a minus or with a parenthesis begins a statement.

The rule is read as a separator that is not written: `separate` puts one before every
minus behind an expression and before every parenthesis behind a name or an operand,
if the token begins a line outside parentheses.  A parser does not tell the difference
(`follows_separated`).  No expression has a separator in it, so none goes on over such
a line break, and in a script that parses without an error the line begins a statement
(`statements_separated`).

A parenthesis behind the name of a member is left out.  There the parser asks for no
line, and a method is called over a line break: `a.b` and `(c)` on two lines are one
statement (`method_over_lines`).
-/
import ScriptEngine.Proofs.Parser.Counters
import ScriptEngine.Proofs.Parser.Kinds
import ScriptEngine.Proofs.Parser.Lockstep

namespace ScriptEngine
namespace Parser

open Grammar

/-- The tokens behind a token on the given line, with a separator before each one that begins a
statement because it begins a line. -/
def separate (σ : Setting) (line : Nat) : List Token → List Token
  | [] => []
  | t :: rest =>
    let more := t :: separate (σ.after t.kind) t.location.line rest
    if σ.Begins t.kind ∧ line < t.location.line then ⟨.semicolon, ";", t.location⟩ :: more else more

/-- Tokens as the lexer gives them when it meets no fault. -/
def faultless (ts : List Token) : List Scanned := ts.map fun t => ⟨t, none⟩

theorem faultless_tokens (ts : List Token) : (faultless ts).map (·.token) = ts := by
  simp [faultless, Function.comp_def]

theorem follows_separated (σ : Setting) (a : Nat) (ss : List Scanned) :
    Follows id σ a a ss (faultless (separate σ a (ss.map (·.token)))) := by
  induction ss generalizing σ a with
  | nil => exact .nil
  | cons s ss ih =>
    have hrest := ih (σ.after s.token.kind) s.token.location.line
    by_cases h : σ.Begins s.token.kind ∧ a < s.token.location.line
    · have hfresh : ¬ (σ.after .semicolon).Exposed s.token.kind := by
        rintro ⟨-, ⟨-, hends⟩ | ⟨-, hname⟩⟩
        · cases hends
        · cases hname
      simp only [List.map_cons, separate, if_pos h]
      refine .separator rfl rfl h.1 h.2 (.token rfl rfl rfl rfl (absurd · hfresh) ?_)
      rw [h.1.after_separator]
      exact hrest
    · simp only [List.map_cons, separate, if_neg h]
      exact .token rfl rfl rfl rfl (fun _ => Iff.rfl) hrest

/-- The parser before the tokens with their separators. -/
def separated (p : Parser) : Parser :=
  { p with ahead := faultless (separate .start p.previous.line p.tokens), diagnostics := .empty }

theorem separated_tokens (p : Parser) :
    p.separated.tokens = separate .start p.previous.line p.tokens := faultless_tokens _

theorem alike_separated {p : Parser} (h : p.nesting = 0) : Alike id .start 0 p p.separated :=
  ⟨follows_separated .start p.previous.line p.ahead, h, h, rfl⟩

theorem not_begins_start (kind : TokenKind) : ¬ Setting.start.Begins kind := by
  rintro ⟨-, ⟨-, hends⟩ | ⟨-, hname | hoperand⟩⟩
  · cases hends
  · cases hname
  · cases hoperand

theorem separate_start (line : Nat) (t : Token) (rest : List Token) :
    separate .start line (t :: rest) =
      t :: separate (Setting.start.after t.kind) t.location.line rest := by
  rw [separate, if_neg fun h => not_begins_start t.kind h.1]

/-- A statement is written in the tokens with their separators. -/
theorem statement_separated {p next : Parser} {s : Stmt} (hn : p.nesting = 0)
    (hk : p.current.kind ≠ .eof) (h : statement p = .ok s next) :
    next.nesting = 0 ∧ ∃ first rest ts after, p.tokens = first :: rest ∧
      first :: separate (Setting.start.after first.kind) first.location.line rest = ts ++ after ∧
      Statement ts s := by
  have halike := alike_separated hn
  have hkind := halike.together rfl
  obtain ⟨s', next', τ, m, hnext, hsame, hbetween, hrest⟩ :=
    statement_mirrored halike ⟨rfl, rfl, rfl⟩ hkind s next h
  rw [SameStmt, Stmt.relocate_id, Stmt.relocate_id] at hsame
  subst hsame
  refine ⟨hrest.nesting_left.trans hbetween.2.1, ?_⟩
  obtain ⟨ts, hts, hstatement⟩ := statement_reads _ _ _ hnext
  obtain ⟨first, rest, hahead, -⟩ := ahead_of_kind hk
  have htokens : p.tokens = first.token :: rest.map (·.token) := by simp [tokens, hahead]
  rw [separated_tokens, htokens, separate_start] at hts
  exact ⟨_, _, ts, _, htokens, hts, hstatement⟩

/-! ## The statements of a script -/

theorem scriptIn_separated (passes : Nat) (afterStatement : Bool) (p : Parser)
    (hn : p.nesting = 0) :
    ∀ s ∈ (scriptIn passes afterStatement p).1, ∃ before first rest ts after,
      p.tokens = before ++ first :: rest ∧
      first :: separate (Setting.start.after first.kind) first.location.line rest = ts ++ after ∧
      Statement ts s := by
  induction passes generalizing p afterStatement with
  | zero =>
    intro s hs
    cases hs
  | succ passes ih =>
    have later : ∀ {a : Bool} {q : Parser}, Moves p q → q.nesting = 0 →
        ∀ s ∈ (scriptIn passes a q).1, ∃ before first rest ts after,
          p.tokens = before ++ first :: rest ∧
          first :: separate (Setting.start.after first.kind) first.location.line rest =
            ts ++ after ∧ Statement ts s := by
      intro a q hmoves hq s hs
      obtain ⟨before, first, rest, ts, after, htokens, hspan⟩ := ih a q hq s hs
      obtain ⟨skipped, hskipped⟩ := hmoves.suffix
      refine ⟨skipped.map (·.token) ++ before, first, rest, ts, after, ?_, hspan⟩
      rw [List.append_assoc, ← htokens]
      simp [tokens, ← hskipped]
    intro s hs
    by_cases hend : p.current.kind = .eof
    · rw [scriptIn_end (by simp [atEnd, check, hend])] at hs
      cases hs
    · by_cases hsemi : p.current.kind = .semicolon
      · rw [scriptIn_separator hsemi] at hs
        have hnext := congrArg Prod.fst (separator_counters afterStatement p)
        exact later (separator_moves _ _) (hnext.trans hn) s hs
      · cases hstatement : statement p with
        | ok first next =>
          obtain ⟨hnext, hspan⟩ := statement_separated hn hend hstatement
          rw [scriptIn_statement hend hsemi hstatement] at hs
          rcases List.mem_cons.mp hs with rfl | hs
          · obtain ⟨first, rest, ts, after, hspan⟩ := hspan
            exact ⟨[], first, rest, ts, after, hspan⟩
          · exact later ((settled_tidy.statement p).ok hstatement).1 hnext s hs
        | error e next =>
          have hmoves := ((settled_tidy.statement p).error hstatement).1
          have hnext := congrArg Prod.fst (recover_counters p.current.location e next)
          rw [scriptIn_failure hend hsemi hstatement] at hs
          exact later (hmoves.trans (recover_moves _ _ _)) hnext s hs

theorem mem_separate {σ : Setting} {line : Nat} {ts : List Token} :
    ∀ t ∈ separate σ line ts, t ∈ ts ∨ t.kind = .semicolon := by
  induction ts generalizing σ line with
  | nil => exact nofun
  | cons u ts ih =>
    intro t ht
    have more : t ∈ u :: separate (σ.after u.kind) u.location.line ts →
        t ∈ u :: ts ∨ t.kind = .semicolon := by
      intro ht
      rcases List.mem_cons.mp ht with rfl | ht
      · exact .inl List.mem_cons_self
      · exact (ih t ht).imp_left (List.mem_cons_of_mem u)
    unfold separate at ht
    dsimp only at ht
    split at ht
    · rcases List.mem_cons.mp ht with rfl | ht
      · exact .inr rfl
      · exact more ht
    · exact more ht

theorem parse_separated {text : String} (h : (Script.parse text).2.hasErrors = false) :
    Block (separate .start 1 (tokensOf text)) (Script.parse text).1.statements := by
  have hvalid := (parse_block h).valid
  let p := ofTokens (.ofString text)
  let q := p.separated
  have hsound : ∀ s ∈ q.ahead, s.Sound := by
    intro s hs
    obtain ⟨t, ht, rfl⟩ := List.mem_map.mp hs
    rcases mem_separate t ht with ht | hsemi
    · obtain ⟨scanned, hscanned, rfl⟩ := List.mem_map.mp ht
      have hsound := TokenStream.ofString_sound text scanned hscanned
      exact ⟨hsound.kind_ne_eof, fun hk => absurd hk (hvalid _ ht), hsound.unsigned_of_number⟩
    · exact ⟨by simp [hsemi], by simp [hsemi], by simp [hsemi]⟩
  have hrevealed : Revealed q := by
    intro s rest hs hfault
    have hmem : s ∈ q.ahead := by rw [hs]; exact List.mem_cons_self
    obtain ⟨t, -, rfl⟩ := List.mem_map.mp hmem
    cases hfault
  have hmirrored : (scriptIn q.ahead.length false q).2.diagnostics.hasErrors = false ∧
      SameBody id (Script.parse text).1.statements (scriptIn q.ahead.length false q).1 :=
    scriptIn_mirrored (alike_separated rfl) ⟨rfl, rfl, rfl⟩ (ofTokens_revealed _)
      (TokenStream.ofString_sound text) (Nat.le_refl _) (Nat.le_refl _) h
  obtain ⟨hclean, hsame⟩ := hmirrored
  have hcovers := scriptIn_covers hrevealed hsound (Nat.le_refl _) hclean
  rw [SameBody, relocateBlock_id, relocateBlock_id] at hsame
  rw [hsame] at hcovers
  have htokens : q.tokens = separate .start 1 (tokensOf text) := separated_tokens p
  rw [← htokens]
  exact hcovers

/-- Every statement of a parse is written in tokens that have a separator before each token that
begins a line outside parentheses and could otherwise go on with an expression.  The separators
of a script that parses without an error are then between its statements, because there is none
in an expression. -/
theorem statements_separated (text : String) :
    (∀ s ∈ (Script.parse text).1.statements, ∃ before first rest ts after,
      tokensOf text = before ++ first :: rest ∧
      first :: separate (Setting.start.after first.kind) first.location.line rest = ts ++ after ∧
      Statement ts s) ∧
    ((Script.parse text).2.hasErrors = false →
      Block (separate .start 1 (tokensOf text)) (Script.parse text).1.statements) ∧
    (∀ l ts e, Expression l ts e → ∀ t ∈ ts, t.kind ≠ .semicolon) := by
  refine ⟨scriptIn_separated _ _ _ rfl, parse_separated, fun l ts e he t ht hk => ?_⟩
  have hin := he.kinds t ht
  rw [hk] at hin
  cases hin

theorem statements_separated_lines :
    (Script.parse "a\n-b\n(c)").2.hasErrors = false ∧
      Block (separate .start 1 (tokensOf "a\n-b\n(c)"))
        (Script.parse "a\n-b\n(c)").1.statements := by
  have hclean : (Script.parse "a\n-b\n(c)").2.hasErrors = false := by decide +kernel
  exact ⟨hclean, (statements_separated _).2.1 hclean⟩

/-- A method is called over a line break. -/
theorem method_over_lines :
    (Script.parse "a.b\n(c)").2.hasErrors = false ∧
      (Script.parse "a.b\n(c)").1.statements =
        [.expr (.method (.variable ⟨"a", ⟨1, 1⟩⟩) ⟨"b", ⟨1, 3⟩⟩ [.variable ⟨"c", ⟨2, 2⟩⟩])] := by
  constructor
  · decide +kernel
  · rfl

end Parser
end ScriptEngine
