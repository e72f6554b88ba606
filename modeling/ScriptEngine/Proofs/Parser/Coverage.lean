/-
A script that parses without an error is parsed whole.

A parse that records no error has read every token of the text: the tokens are a
block of the grammar whose statements are the ones that the parse returns
(`parse_covers`).  Nothing is skipped and nothing is made up, because every way to
skip a token first records an error.  A syntax error is recorded when it is
reported, unless it blames an invalid token, and the error of an invalid token was
recorded when the token came next.  No error is ever taken back.
-/
import ScriptEngine.Proofs.Parser.Spans
import ScriptEngine.Proofs.Token.Kinds

namespace ScriptEngine
namespace Parser

open Grammar

theorem scriptIn_moves (passes : Nat) (afterStatement : Bool) (p : Parser) :
    Moves p (scriptIn passes afterStatement p).2 := by
  induction passes generalizing p afterStatement with
  | zero => exact .refl
  | succ passes ih =>
    unfold scriptIn
    split
    · exact .refl
    · split
      · exact (separator_moves _ _).trans (ih false _)
      · split
        · next s q hq => exact ((settled_tidy.statement p).ok hq).1.trans (ih true q)
        · next e q hq =>
          have hfail := ((settled_tidy.statement p).error hq).1
          exact (hfail.trans (recover_moves _ _ _)).trans (ih false _)

theorem report_hasErrors {p : Parser} {e : SyntaxError} (h : e.fault ≠ .invalidToken) :
    (p.report e).diagnostics.hasErrors = true := by
  rw [report, if_neg h]
  simp [Diagnostics.error, Diagnostics.add, Diagnostic.isError]

/-- Recovery leaves a recorded error behind. -/
theorem recover_hasErrors {p : Parser} {e : SyntaxError} (start : Location)
    (hp : Revealed p) (hs : ∀ s ∈ p.ahead, s.Sound)
    (he : e.fault = .invalidToken → p.current.kind = .invalid) :
    (recover start e p).diagnostics.hasErrors = true := by
  by_cases h : e.fault = .invalidToken
  · have hkind := he h
    obtain ⟨s, rest, hahead, hcurrent⟩ := ahead_of_kind (p := p) (by simp [hkind])
    have hfault : s.fault.isSome :=
      (hs s (by simp [hahead])).fault_of_invalid (by rw [← hcurrent, hkind])
    exact (recover_moves start e p).hasErrors (hp s rest hahead hfault)
  · have hreport : Moves (p.report e) (recover start e p) := by
      unfold recover
      refine Moves.trans (Moves.nest 0 .refl) ?_
      dsimp only
      split
      · exact (Moves.advance .refl).trans (synchronize_moves _)
      · exact synchronize_moves _
    exact hreport.hasErrors (report_hasErrors h)

/-- With a pass for every token ahead, a parse without an error reads all of them. -/
theorem scriptIn_covers {passes : Nat} {afterStatement : Bool} {p : Parser} (hp : Revealed p)
    (hs : ∀ s ∈ p.ahead, s.Sound) (hn : p.ahead.length ≤ passes)
    (h : (scriptIn passes afterStatement p).2.diagnostics.hasErrors = false) :
    Block p.tokens (scriptIn passes afterStatement p).1 := by
  induction passes generalizing p afterStatement with
  | zero =>
    have hnil : p.ahead = [] := List.length_eq_zero_iff.mp (by omega)
    simp only [tokens, hnil, List.map_nil, scriptIn]
    exact .nil
  | succ passes ih =>
    unfold scriptIn at h ⊢
    by_cases hend : p.atEnd = true
    · have hnil : p.ahead = [] := by
        cases hahead : p.ahead with
        | nil => rfl
        | cons s rest =>
          have hkind := current_of_check hend
          rw [show p.current = s.token by simp [current, hahead]] at hkind
          exact absurd hkind (hs s (by simp [hahead])).kind_ne_eof
      rw [if_pos hend]
      simp only [tokens, hnil, List.map_nil]
      exact .nil
    · have hne : p.current.kind ≠ .eof := by simpa [atEnd, check] using hend
      rw [if_neg hend] at h ⊢
      by_cases hsemi : p.check .semicolon = true
      · rw [if_pos hsemi] at h ⊢
        have hmoves := separator_moves afterStatement p
        have hahead : (separator afterStatement p).ahead = p.advance.ahead := by
          unfold separator
          split <;> rfl
        have hlen := length_advance hne
        have hrest := ih (hmoves.revealed hp)
          (fun s hmem => hs s (hmoves.suffix.subset hmem)) (by rw [hahead]; omega) h
        have htokens : (separator afterStatement p).tokens = p.advance.tokens := by
          simp [tokens, hahead]
        rw [tokens_advance hne, ← htokens]
        exact .separator _ (current_of_check hsemi) hrest
      · rw [if_neg hsemi] at h ⊢
        cases hq : statement p with
        | ok s q =>
          rw [hq] at h
          obtain ⟨hmoves, hlen⟩ := (settled_tidy.statement p).ok hq
          obtain ⟨ts, hts, hstatement⟩ := statement_reads p s q hq
          rw [hts]
          exact .statement hstatement (ih (hmoves.revealed hp)
            (fun s hmem => hs s (hmoves.suffix.subset hmem)) (by omega) h)
        | error e q =>
          -- nothing takes back the error that the recovery records
          rw [hq] at h
          obtain ⟨hmoves, hinvalid⟩ := (settled_tidy.statement p).error hq
          have herror := recover_hasErrors p.current.location (hmoves.revealed hp)
            (fun s hmem => hs s (hmoves.suffix.subset hmem)) hinvalid
          have hlast := (scriptIn_moves passes false _).hasErrors herror
          rw [hlast] at h
          cases h

/-- Every statement of a parse is written in the text, also when another part of the text does
not parse. -/
theorem scriptIn_written (passes : Nat) (afterStatement : Bool) (p : Parser) :
    ∀ s ∈ (scriptIn passes afterStatement p).1,
      ∃ ts, (∀ t ∈ ts, t ∈ p.tokens) ∧ Statement ts s := by
  have sub : ∀ {q r : Parser}, Moves q r → ∀ t ∈ r.tokens, t ∈ q.tokens := by
    intro q r h t ht
    obtain ⟨s, hs, rfl⟩ := List.mem_map.mp ht
    exact List.mem_map_of_mem (h.suffix.subset hs)
  induction passes generalizing p afterStatement with
  | zero =>
    intro s hs
    cases hs
  | succ passes ih =>
    have later : ∀ {a : Bool} {q : Parser}, Moves p q → ∀ s ∈ (scriptIn passes a q).1,
        ∃ ts, (∀ t ∈ ts, t ∈ p.tokens) ∧ Statement ts s := by
      intro a q hq s hs
      obtain ⟨ts, hts, hstatement⟩ := ih a q s hs
      exact ⟨ts, fun t ht => sub hq t (hts t ht), hstatement⟩
    intro s hs
    unfold scriptIn at hs
    split at hs
    · cases hs
    · split at hs
      · exact later (separator_moves _ _) s hs
      · split at hs
        · next first q hq =>
          obtain ⟨ts, hts, hstatement⟩ := statement_reads p first q hq
          rcases List.mem_cons.mp hs with rfl | hs
          · refine ⟨ts, fun t ht => ?_, hstatement⟩
            rw [hts]
            exact List.mem_append_left _ ht
          · exact later ((settled_tidy.statement p).ok hq).1 s hs
        · next e q hq =>
          have hfail := ((settled_tidy.statement p).error hq).1
          exact later (hfail.trans (recover_moves _ _ _)) s hs

theorem ofTokens_revealed (tokens : TokenStream) : Revealed (ofTokens tokens) :=
  revealed_reveal .empty rfl

theorem parse_block {text : String} (h : (Script.parse text).2.hasErrors = false) :
    Block ((TokenStream.ofString text).tokens.map (·.token)) (Script.parse text).1.statements :=
  scriptIn_covers (ofTokens_revealed _) (TokenStream.ofString_sound text) (Nat.le_refl _) h

/-- The statements of a script that parses without an error, with the separators between them, are
all of its tokens; and every expression and every statement is located at the first token of its
span that is no grouping parenthesis. -/
theorem parse_covers (text : String) (h : (Script.parse text).2.hasErrors = false) :
    Block ((TokenStream.ofString text).tokens.map (·.token)) (Script.parse text).1.statements ∧
      (∀ l ts e, Expression l ts e → place ts = some e.location) ∧
      (∀ ts s, Statement ts s → place ts = some s.location) :=
  ⟨parse_block h, fun _ _ _ he => he.place, fun _ _ hs => hs.place⟩

theorem parse_covers_branch :
    let text := "a = (b.c); if (not a) print(a) else d(a).e = true end"
    (Script.parse text).2.hasErrors = false ∧
      Block ((TokenStream.ofString text).tokens.map (·.token))
        (Script.parse text).1.statements := by
  refine ⟨by decide +kernel, ?_⟩
  exact (parse_covers _ (by decide +kernel)).1

end Parser
end ScriptEngine
