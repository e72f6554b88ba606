/-
Parsing ends, and reports every fault of the lexer once.

A pass of the loop over the statements consumes a token, so the loop is at the end after as
many passes as there are tokens, and no statement uses up its steps on the way.

The messages so far and the faults behind the next token account for all faults of the text
(`Accounts`).  A step of the grammar adds warnings and the faults it comes to.  A message
about the syntax is added by recovery alone, once in a pass.
-/
import ScriptEngine.Proofs.Parser.Coverage
import ScriptEngine.Proofs.Parser.Recovery

namespace ScriptEngine

/-- The message about a fault of the lexer. -/
def LexError.diagnostic (e : LexError) : Diagnostic := ⟨.error, e.code, e.message, e.location⟩

/-- The messages whose code begins with the letter. -/
def coded (letter : Char) (ds : List Diagnostic) : List Diagnostic :=
  ds.filter fun d => d.code.toList.head? = some letter

theorem coded_append (letter : Char) (ds es : List Diagnostic) :
    coded letter (ds ++ es) = coded letter ds ++ coded letter es := List.filter_append ..

theorem coded_singleton {letter first : Char} {d : Diagnostic}
    (h : d.code.toList.head? = some first) :
    coded letter [d] = if first = letter then [d] else [] := by
  simp [coded, List.filter_cons, h]

theorem LexError.code_head (e : LexError) : e.code.toList.head? = some 'L' := by
  cases e <;> simp [code]

theorem SyntaxFault.code_head (fault : SyntaxFault) : fault.code.toList.head? = some 'P' := by
  cases fault <;> simp [code]

theorem warningCodes_head {code : String} (h : code ∈ warningCodes) :
    code.toList.head? = some 'W' := by
  simp only [warningCodes, List.mem_cons, List.not_mem_nil, or_false] at h
  rcases h with rfl | rfl <;> rfl

namespace Parser

/-- The messages about the invalid ones of the tokens. -/
def faultMessages (ahead : List Scanned) : List Diagnostic :=
  (ahead.filterMap (·.fault)).map LexError.diagnostic

theorem faultMessages_eq (ahead : List Scanned) :
    faultMessages ahead = found ahead ++ faultMessages ahead.tail := by
  cases ahead with
  | nil => rfl
  | cons s rest =>
    obtain ⟨t, fault⟩ := s
    cases fault with
    | none => rfl
    | some e => rfl

theorem found_coded (ahead : List Scanned) :
    coded 'L' (found ahead) = found ahead ∧ coded 'P' (found ahead) = [] := by
  cases ahead with
  | nil => exact ⟨rfl, rfl⟩
  | cons s rest =>
    obtain ⟨t, fault⟩ := s
    cases fault with
    | none => exact ⟨rfl, rfl⟩
    | some e =>
      have h : e.diagnostic.code.toList.head? = some 'L' := e.code_head
      exact ⟨coded_singleton h, coded_singleton h⟩

/-! ## Accounting for the faults -/

/-- On the way from one parser to the other the faults come to are reported, each once and in order,
and at most `k` messages about the syntax. -/
def Accounts (k : Nat) (p q : Parser) : Prop :=
  ∃ more, q.diagnostics.messages = p.diagnostics.messages ++ more ∧
    faultMessages p.ahead.tail = coded 'L' more ++ faultMessages q.ahead.tail ∧
    (coded 'P' more).length ≤ k

namespace Accounts

variable {j k : Nat} {p q r : Parser}

theorem refl (p : Parser) : Accounts 0 p p :=
  ⟨[], (List.append_nil _).symm, rfl, Nat.le_refl _⟩

theorem trans (h : Accounts j p q) (g : Accounts k q r) : Accounts (j + k) p r := by
  obtain ⟨more, hmessages, hfaults, hcount⟩ := h
  obtain ⟨later, hlater, hlaterFaults, hlaterCount⟩ := g
  refine ⟨more ++ later, ?_, ?_, ?_⟩
  · rw [hlater, hmessages, List.append_assoc]
  · rw [hfaults, hlaterFaults, coded_append, List.append_assoc]
  · rw [coded_append, List.length_append]
    omega

theorem mono (h : Accounts j p q) (hjk : j ≤ k) : Accounts k p q := by
  obtain ⟨more, hmessages, hfaults, hcount⟩ := h
  exact ⟨more, hmessages, hfaults, Nat.le_trans hcount hjk⟩

/-- A message with neither letter does not count. -/
theorem warn (p : Parser) {code : String} (text : String) (l : Location)
    (h : code ∈ warningCodes) : Accounts 0 p (p.warn code text l) := by
  have hhead : (⟨.warning, code, text, l⟩ : Diagnostic).code.toList.head? = some 'W' :=
    warningCodes_head h
  refine ⟨[⟨.warning, code, text, l⟩], rfl, ?_, ?_⟩
  · rw [coded_singleton hhead]
    rfl
  · rw [coded_singleton hhead]
    exact Nat.le_refl _

theorem advance (p : Parser) : Accounts 0 p p.advance := by
  obtain ⟨hlexical, hnone⟩ := found_coded p.ahead.tail
  refine ⟨found p.ahead.tail, ?_, ?_, by simp [hnone]⟩
  · rw [advance_messages, advance_ahead]
  · rw [hlexical, advance_ahead, ← faultMessages_eq]

/-- An error is one message about the syntax, or none if the lexer has reported it. -/
theorem report (p : Parser) (e : SyntaxError) : Accounts 1 p (p.report e) := by
  let d : Diagnostic := ⟨.error, e.fault.code, e.fault.message, e.location⟩
  have hhead : d.code.toList.head? = some 'P' := e.fault.code_head
  unfold Parser.report
  split
  · exact (refl p).mono (Nat.zero_le 1)
  · refine ⟨[d], rfl, ?_, ?_⟩
    · rw [coded_singleton hhead]
      rfl
    · rw [coded_singleton hhead]
      exact Nat.le_refl _

end Accounts

theorem Tallied.accounts {p q : Parser} (h : Tallied p q) : Accounts 0 p q := by
  induction h with
  | refl => exact .refl p
  | advance _ _ _ ih => exact ih.trans (.advance _)
  | nest _ _ ih => exact ih
  | opening _ _ ih => exact ih.trans (.advance _)
  | closing _ _ _ ih => exact ih.trans (.advance _)
  | warn text l _ hc ih => exact ih.trans (.warn _ text l hc)

theorem separator_accounts (afterStatement : Bool) (p : Parser) :
    Accounts 0 p (separator afterStatement p) := by
  unfold separator
  split
  · exact .advance p
  · exact (Accounts.advance p).trans (.warn _ _ _ (by decide))

theorem synchronize_accounts (p : Parser) : Accounts 0 p p.synchronize := by
  have skip : ∀ n (p : Parser), Accounts 0 p (advanceBy n p) := by
    intro n
    induction n with
    | zero => exact .refl
    | succ n ih => exact fun p => (Accounts.advance p).trans (ih _)
  exact skip _ { p with openBlocks := 0 }

theorem recover_accounts (start : Location) (e : SyntaxError) (p : Parser) :
    Accounts 1 p (recover start e p) := by
  have hreport : Accounts 1 p { p.report e with nesting := 0 } := .report p e
  rw [recover_eq]
  refine Accounts.trans ?_ (synchronize_accounts _)
  unfold abandon
  dsimp only
  split
  · exact hreport.trans (.advance _)
  · exact hreport

/-- A pass adds at most one message about the syntax. -/
theorem Progress.next_accounts (s : Progress) : Accounts 1 s.parser s.next.parser := by
  have hpass := next_pass s
  generalize s.next = t at hpass ⊢
  cases hpass with
  | done => exact (Accounts.refl _).mono (Nat.zero_le 1)
  | separator => exact (separator_accounts _ _).mono (Nat.zero_le 1)
  | statement _ _ hq => exact ((statement_tallies _).ok hq).accounts.mono (Nat.zero_le 1)
  | failure _ _ hq =>
    exact ((statement_tallies _).error hq).accounts.trans (recover_accounts _ _ _)

theorem Progress.after_accounts (p : Parser) (n : Nat) : Accounts n p (after p n).parser := by
  induction n with
  | zero => exact .refl p
  | succ n ih => exact ih.trans (next_accounts _)

/-! ## The loop ends -/

/-- A pass that is not at the end consumes a token. -/
theorem Progress.next_shorter {s : Progress} (h : s.parser.atEnd = false) :
    s.next.parser.ahead.length < s.parser.ahead.length := by
  have hk := current_ne_eof h
  have hpass := next_pass s
  generalize s.next = t at hpass ⊢
  cases hpass with
  | done hend =>
    rw [h] at hend
    cases hend
  | separator => exact separator_shorter hk _
  | statement _ _ hq => exact ((settled_tidy.statement _).ok hq).2
  | failure _ _ hq => exact recover_shorter ((settled_tidy.statement _).error hq).1 hk _

theorem Progress.next_consumes {s : Progress} (h : s.parser.atEnd = false) :
    ∃ front, front ≠ [] ∧ s.parser.tokens = front ++ s.next.parser.tokens := by
  obtain ⟨front, hfront⟩ := s.next_moves.suffix
  have hless := next_shorter h
  refine ⟨front.map (·.token), ?_, ?_⟩
  · rintro hnil
    rw [← hfront, List.map_eq_nil_iff.mp hnil] at hless
    exact Nat.lt_irrefl _ hless
  · rw [tokens, tokens, ← List.map_append, hfront]

theorem Progress.after_shorter (p : Parser) {n : Nat} (h : (after p n).parser.atEnd = false) :
    (after p n).parser.ahead.length + n ≤ p.ahead.length := by
  induction n with
  | zero => exact Nat.le_refl _
  | succ n ih =>
    -- once the loop is at the end it stays there
    have hbefore : (after p n).parser.atEnd = false := by
      cases hend : (after p n).parser.atEnd with
      | false => rfl
      | true =>
        rw [after, next, if_pos hend, hend] at h
        cases h
    have hless := next_shorter hbefore
    have hmore := ih hbefore
    rw [after]
    omega

/-- After a pass for every token the loop is at the end. -/
theorem Progress.after_ends (p : Parser) : (after p p.ahead.length).parser.atEnd = true := by
  cases h : (after p p.ahead.length).parser.atEnd with
  | true => rfl
  | false =>
    have hlength := after_shorter p h
    have hnone : (after p p.ahead.length).parser.ahead = [] :=
      List.length_eq_zero_iff.mp (by omega)
    simp [atEnd, check, current, hnone, Token.eof] at h

/-- A statement with enough steps has an answer, which more of them would not change. -/
theorem statement_steps {p : Parser} {steps : Nat} (h : p.budget ≤ steps) :
    Steady p (statementIn steps) statement := by
  have hsteps : 4 * p.ahead.length + 3 ≤ steps := by
    unfold budget at h
    omega
  exact ((callsIn_settled steps).statement p hsteps).of_eq rfl

/-- The parse of a text ends at the end of the text, and its messages report what is wrong with the
tokens. -/
structure Finishes (text : String) : Prop where
  /-- The loop is over after a pass for every token, and nothing is left. -/
  ends : let s := Progress.after (ofTokens (.ofString text)) (tokensOf text).length
    s.parser.atEnd = true ∧ s.parser.ahead = [] ∧
      Script.parse text = (⟨s.statements⟩, s.parser.diagnostics)
  /-- Until then every pass consumes a token. -/
  consumes : ∀ n, let s := Progress.after (ofTokens (.ofString text)) n
    s.parser.atEnd = false →
      ∃ front, front ≠ [] ∧ s.parser.tokens = front ++ s.next.parser.tokens
  /-- No number of steps that is large enough is used up by a statement. -/
  steps : ∀ n, let s := Progress.after (ofTokens (.ofString text)) n
    ∀ steps, s.parser.budget ≤ steps →
      statementIn steps s.parser = statement s.parser ∧
        ∀ e q, statement s.parser = .error e q → e.fault ≠ .outOfSteps
  /-- A pass adds at most one message about the syntax. -/
  syntactic : ∀ n, let s := Progress.after (ofTokens (.ofString text)) n
    ∃ more, s.next.parser.diagnostics.messages = s.parser.diagnostics.messages ++ more ∧
      (coded 'P' more).length ≤ 1
  /-- The faults of the lexer are reported, each once and in order. -/
  lexical : coded 'L' (Script.parse text).2.messages =
    (TokenStream.ofString text).faults.map LexError.diagnostic

/-- What the loop leaves behind after a pass for every token. -/
theorem parse_ends (text : String) :
    let s := Progress.after (ofTokens (.ofString text)) (tokensOf text).length
    s.parser.atEnd = true ∧ s.parser.ahead = [] ∧
      Script.parse text = (⟨s.statements⟩, s.parser.diagnostics) := by
  intro s
  have hend : s.parser.atEnd = true := by
    have hends := Progress.after_ends (ofTokens (.ofString text))
    rwa [show (ofTokens (.ofString text)).ahead.length = (tokensOf text).length from
      (List.length_map _).symm] at hends
  refine ⟨hend, ?_, ?_⟩
  · cases hahead : s.parser.ahead with
    | nil => rfl
    | cons t rest =>
      -- no token of the text is the mark of the end
      have hmem := (Progress.after_moves _ _).suffix.subset (hahead ▸ List.mem_cons_self)
      have hkind := current_of_check hend
      rw [current, hahead] at hkind
      exact absurd hkind (TokenStream.ofString_sound text t hmem).kind_ne_eof
  · obtain ⟨hstatements, hdiagnostics⟩ := parse_eq_after text (tokensOf text).length rfl
    rw [scriptIn_end hend] at hstatements hdiagnostics
    rw [List.append_nil] at hstatements
    exact Prod.ext (congrArg Script.mk hstatements) hdiagnostics

theorem parse_lexical (text : String) : coded 'L' (Script.parse text).2.messages =
    (TokenStream.ofString text).faults.map LexError.diagnostic := by
  obtain ⟨-, hnone, hparse⟩ := parse_ends text
  obtain ⟨more, hmessages, hfaults, -⟩ :=
    Progress.after_accounts (ofTokens (.ofString text)) (tokensOf text).length
  have hfirst : (ofTokens (.ofString text)).diagnostics.messages =
      found (TokenStream.ofString text).tokens := rfl
  rw [hnone, show faultMessages [].tail = [] from rfl, List.append_nil] at hfaults
  rw [hparse, hmessages, hfirst, coded_append, (found_coded _).1, ← hfaults]
  exact (faultMessages_eq _).symm

theorem parse_finishes (text : String) : Finishes text := by
  constructor
  case ends => exact parse_ends text
  case consumes => exact fun n => Progress.next_consumes
  case steps =>
    intro n s steps h
    have hsteady := statement_steps h
    exact ⟨hsteady.same, fun e q hq => hsteady.steps (hsteady.same.trans hq)⟩
  case syntactic =>
    intro n s
    obtain ⟨more, hmessages, -, hcount⟩ := s.next_accounts
    exact ⟨more, hmessages, hcount⟩
  case lexical => exact parse_lexical text

end Parser
end ScriptEngine
