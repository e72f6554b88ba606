/-
Parsing resumes without a trace of what came before.

Between statements the counters are zero (`Progress.after_counters`), and the grammar does
not look at the rest of the past (`Past`).  Recovery reads the place of the last token, but
only after at least one token was given up (`abandon_shorter`).

What the loop over the statements does from any pass on is therefore what a new parser does
with the tokens that are left (`parse_resumes`).  A new parser reports the fault of its
first token, which has been reported before, and to it no statement stands before a
separator at the front.
-/
import ScriptEngine.Proofs.Parser.Counters
import ScriptEngine.Proofs.Parser.Forgetting
import ScriptEngine.Proofs.Parser.Lockstep

namespace ScriptEngine
namespace Parser

/-! ## Recovery gives up a token -/

/-- The parser after a failure, past at least one token of the statement that began at `start`. -/
def abandon (start : Location) (e : SyntaxError) (p : Parser) : Parser :=
  let reported := { p.report e with nesting := 0 }
  if reported.current.location = start then reported.advance else reported

theorem recover_eq (start : Location) (e : SyntaxError) (p : Parser) :
    recover start e p = (abandon start e p).synchronize := rfl

theorem report_ahead (p : Parser) (e : SyntaxError) : (p.report e).ahead = p.ahead := by
  unfold report
  split <;> rfl

theorem report_current (p : Parser) (e : SyntaxError) :
    ({ p.report e with nesting := 0 } : Parser).current = p.current := by
  unfold report
  split <;> rfl

/-- A parser that has moved over no token sees the same token. -/
theorem Moves.current_eq {p q : Parser} (h : Moves p q) (hk : p.current.kind ≠ .eof)
    (hlen : p.ahead.length ≤ q.ahead.length) : q.current = p.current := by
  obtain ⟨t, rest, hahead, hcurrent⟩ := ahead_of_kind hk
  have hsame : q.ahead = p.ahead := h.suffix.eq_of_length_le hlen
  rw [hcurrent, current, hsame, hahead]

theorem abandon_shorter {p q : Parser} (h : Moves p q) (hk : p.current.kind ≠ .eof)
    (e : SyntaxError) :
    (abandon p.current.location e q).ahead.length < p.ahead.length := by
  obtain ⟨t, rest, hahead, -⟩ := ahead_of_kind hk
  have hle := h.length_le
  unfold abandon
  dsimp only
  split
  · rw [advance_ahead]
    show (q.report e).ahead.tail.length < _
    rw [report_ahead, List.length_tail, hahead, List.length_cons] at *
    omega
  · next hplace =>
    show (q.report e).ahead.length < _
    rw [report_ahead]
    refine Nat.lt_of_not_le fun hlen => hplace ?_
    rw [report_current, h.current_eq hk hlen]

theorem recover_shorter {p q : Parser} (h : Moves p q) (hk : p.current.kind ≠ .eof)
    (e : SyntaxError) :
    (recover p.current.location e q).ahead.length < p.ahead.length :=
  Nat.lt_of_le_of_lt (synchronize_moves _).length_le (abandon_shorter h hk e)

theorem Past.onto_recover {past : Past} {p q : Parser} (hp : p.ahead.length ≤ past.length)
    (h : Moves p q) (hk : p.current.kind ≠ .eof) (e : SyntaxError) :
    recover p.current.location e (past.onto q) = past.onto (recover p.current.location e q) := by
  have hq : q.ahead.length ≤ past.length := Nat.le_trans h.length_le hp
  have habandon : abandon p.current.location e (past.onto q) =
      past.onto (abandon p.current.location e q) := by
    unfold abandon
    dsimp only
    rw [report_current, report_current, onto_current, onto_report]
    split
    · refine onto_advance (p := { q.report e with nesting := 0 }) ?_
      show (q.report e).ahead.length ≤ _
      rw [report_ahead]
      exact hq
    · rfl
  rw [recover_eq, recover_eq, habandon]
  exact onto_synchronize (Nat.lt_of_lt_of_le (abandon_shorter h hk e) hp)

/-! ## The loop over the statements -/

theorem separator_shorter {p : Parser} (hk : p.current.kind ≠ .eof) (afterStatement : Bool) :
    (separator afterStatement p).ahead.length < p.ahead.length := by
  have horderly : Orderly p 1 (modify (separator afterStatement) : Parse PUnit) :=
    separator_orderly hk
  exact Nat.lt_of_succ_le (horderly.ok rfl).2

theorem current_ne_eof {p : Parser} (h : p.atEnd = false) : p.current.kind ≠ .eof := by
  simpa [atEnd, check] using h

/-- What the loop over the statements has done, and where it is. -/
structure Progress where
  statements : List Stmt
  afterStatement : Bool
  parser : Parser

namespace Progress

def begin (p : Parser) : Progress := ⟨[], false, p⟩

/-- One more pass: a separator, a statement, or a statement that does not parse. -/
def next (s : Progress) : Progress :=
  if s.parser.atEnd then s
  else if s.parser.check .semicolon then
    ⟨s.statements, false, s.parser.separator s.afterStatement⟩
  else
    match statement s.parser with
    | .ok stmt q => ⟨s.statements ++ [stmt], true, q⟩
    | .error e q => ⟨s.statements, false, recover s.parser.current.location e q⟩

/-- What a pass can do. -/
inductive Pass (s : Progress) : Progress → Prop where
  | done : s.parser.atEnd = true → Pass s s
  | separator : s.parser.atEnd = false → s.parser.check .semicolon = true →
      Pass s ⟨s.statements, false, s.parser.separator s.afterStatement⟩
  | statement {stmt : Stmt} {q : Parser} : s.parser.atEnd = false →
      s.parser.check .semicolon = false → Parser.statement s.parser = .ok stmt q →
      Pass s ⟨s.statements ++ [stmt], true, q⟩
  | failure {e : SyntaxError} {q : Parser} : s.parser.atEnd = false →
      s.parser.check .semicolon = false → Parser.statement s.parser = .error e q →
      Pass s ⟨s.statements, false, recover s.parser.current.location e q⟩

theorem next_pass (s : Progress) : Pass s s.next := by
  unfold next
  split
  · exact .done ‹_›
  · next hend =>
    rw [Bool.not_eq_true] at hend
    split
    · exact .separator hend ‹_›
    · next hsemi =>
      rw [Bool.not_eq_true] at hsemi
      split
      · exact .statement hend hsemi ‹_›
      · exact .failure hend hsemi ‹_›

/-- The loop after a number of passes. -/
def after (p : Parser) : Nat → Progress
  | 0 => begin p
  | n + 1 => (after p n).next

/-- The end of the loop, with a number of passes left. -/
def finishIn (passes : Nat) (s : Progress) : List Stmt × Parser :=
  (s.statements ++ (scriptIn passes s.afterStatement s.parser).1,
    (scriptIn passes s.afterStatement s.parser).2)

theorem finishIn_next (passes : Nat) (s : Progress) :
    finishIn passes s.next = finishIn (passes + 1) s := by
  have hpass := next_pass s
  generalize s.next = t at hpass ⊢
  unfold finishIn
  cases hpass with
  | done hend => rw [scriptIn_end hend, scriptIn_end hend]
  | separator hend hsemi => rw [scriptIn_separator (current_of_check hsemi)]
  | statement hend hsemi hq =>
    rw [scriptIn_statement (current_ne_eof hend) (by simpa [check] using hsemi) hq]
    simp
  | failure hend hsemi hq =>
    rw [scriptIn_failure (current_ne_eof hend) (by simpa [check] using hsemi) hq]

theorem finishIn_after (p : Parser) (passes n : Nat) :
    finishIn passes (after p n) = scriptIn (passes + n) false p := by
  induction n generalizing passes with
  | zero => simp [after, finishIn, begin]
  | succ n ih => rw [after, finishIn_next, ih, Nat.add_right_comm, Nat.add_assoc]

theorem next_moves (s : Progress) : Moves s.parser s.next.parser := by
  have hpass := next_pass s
  generalize s.next = t at hpass ⊢
  cases hpass with
  | done => exact .refl
  | separator => exact separator_moves _ _
  | statement _ _ hq => exact ((settled_tidy.statement _).ok hq).1
  | failure _ _ hq => exact ((settled_tidy.statement _).error hq).1.trans (recover_moves _ _ _)

theorem after_moves (p : Parser) (n : Nat) : Moves p (after p n).parser := by
  induction n with
  | zero => exact .refl
  | succ n ih => exact ih.trans (next_moves _)

theorem next_counters {s : Progress} (h : s.parser.counters = (0, 0)) :
    s.next.parser.counters = (0, 0) := by
  have hpass := next_pass s
  generalize s.next = t at hpass ⊢
  cases hpass with
  | done => exact h
  | separator => exact (separator_counters _ _).trans h
  | statement _ _ hq => exact (statement_counters hq).trans h
  | failure => exact recover_counters _ _ _

theorem after_counters {p : Parser} (hp : p.counters = (0, 0)) (n : Nat) :
    (after p n).parser.counters = (0, 0) := by
  induction n with
  | zero => exact hp
  | succ n ih => exact next_counters ih

end Progress

/-- A pass for every token ahead is enough. -/
theorem scriptIn_enough {passes : Nat} (more : Nat) {afterStatement : Bool} {p : Parser}
    (h : p.ahead.length ≤ passes) :
    scriptIn (passes + more) afterStatement p = scriptIn passes afterStatement p := by
  induction passes generalizing p afterStatement with
  | zero =>
    have hend : p.atEnd = true := by
      simp [atEnd, check, current, List.eq_nil_of_length_eq_zero (Nat.le_zero.mp h), Token.eof]
    rw [scriptIn_end hend, scriptIn_end hend]
  | succ passes ih =>
    rw [Nat.add_right_comm]
    by_cases hend : p.atEnd = true
    · rw [scriptIn_end hend, scriptIn_end hend]
    · have hk : p.current.kind ≠ .eof := by simpa [atEnd, check] using hend
      by_cases hs : p.current.kind = .semicolon
      · have hlen := separator_shorter hk afterStatement
        rw [scriptIn_separator hs, scriptIn_separator hs, ih (by omega)]
      · cases hq : statement p with
        | ok s q =>
          have hlen := ((settled_tidy.statement p).ok hq).2
          rw [scriptIn_statement hk hs hq, scriptIn_statement hk hs hq, ih (by omega)]
        | error e q =>
          have hlen := recover_shorter ((settled_tidy.statement p).error hq).1 hk e
          rw [scriptIn_failure hk hs hq, scriptIn_failure hk hs hq, ih (by omega)]

/-- The loop does the same with another past. -/
theorem scriptIn_onto {past : Past} (passes : Nat) (afterStatement : Bool) {p : Parser}
    (h : p.ahead.length ≤ past.length) :
    scriptIn passes afterStatement (past.onto p) =
      ((scriptIn passes afterStatement p).1, past.onto (scriptIn passes afterStatement p).2) := by
  induction passes generalizing p afterStatement with
  | zero => rfl
  | succ passes ih =>
    by_cases hend : p.atEnd = true
    · rw [scriptIn_end hend, scriptIn_end (p := past.onto p) hend]
    · have hk : p.current.kind ≠ .eof := by simpa [atEnd, check] using hend
      by_cases hs : p.current.kind = .semicolon
      · have hlen := separator_shorter hk afterStatement
        rw [scriptIn_separator hs, scriptIn_separator (p := past.onto p) hs,
          Past.onto_separator _ h, ih _ (by omega)]
      · have hforgets : statement (past.onto p) = carry past (statement p) := statement_forgets h
        cases hq : statement p with
        | ok s q =>
          have hlen := ((settled_tidy.statement p).ok hq).2
          rw [hq] at hforgets
          rw [scriptIn_statement hk hs hq,
            scriptIn_statement (p := past.onto p) hk hs hforgets, ih _ (by omega)]
        | error e q =>
          have hmoves := ((settled_tidy.statement p).error hq).1
          have hlen := recover_shorter hmoves hk e
          rw [hq] at hforgets
          rw [scriptIn_failure hk hs hq, scriptIn_failure (p := past.onto p) hk hs hforgets,
            Past.onto_current, Past.onto_recover h hmoves hk, ih _ (by omega)]

/-! ## A new parser on the tokens that are left -/

/-- A new parser on the tokens ahead. -/
def fresh (p : Parser) : Parser := ofTokens ⟨p.ahead, p.finish⟩

/-- The message about the first token ahead, if it is invalid. -/
def found (ahead : List Scanned) : List Diagnostic := (reveal ahead .empty).messages

/-- The message about a separator that no statement stands before. -/
def redundant (l : Location) : Diagnostic := ⟨.warning, "W002", "redundant ';'", l⟩

/-- The parser without a past. -/
def bare (p : Parser) : Parser := { p with previous := .start, diagnostics := .empty }

theorem reveal_messages (ahead : List Scanned) (ds : Diagnostics) :
    (reveal ahead ds).messages = ds.messages ++ found ahead := by
  have h := Past.reveal_append ahead ds.messages .empty
  rw [show ds.messages ++ Diagnostics.empty.messages = ds.messages from List.append_nil _,
    Diagnostics.ofMessages_messages] at h
  exact congrArg Diagnostics.messages h

theorem advance_messages (p : Parser) :
    p.advance.diagnostics.messages = p.diagnostics.messages ++ found p.advance.ahead := by
  unfold advance
  split
  · next hahead => simp [hahead, found, reveal, Diagnostics.empty]
  · exact reveal_messages _ _

theorem fresh_bare {p : Parser} (h : p.counters = (0, 0)) : p.fresh.bare = p.bare := by
  obtain ⟨hn, hb⟩ := Prod.mk.inj h
  simp [fresh, ofTokens, bare, hn, hb]

/-- The loop adds to the messages what it adds to none. -/
theorem scriptIn_bare (passes : Nat) (afterStatement : Bool) (p : Parser) :
    (scriptIn passes afterStatement p).1 = (scriptIn passes afterStatement p.bare).1 ∧
      (scriptIn passes afterStatement p).2.diagnostics.messages =
        p.diagnostics.messages ++
          (scriptIn passes afterStatement p.bare).2.diagnostics.messages := by
  let past : Past := ⟨p.ahead.length, p.previous, p.diagnostics.messages⟩
  have hp : past.onto p.bare = p := by simp [past, Past.onto, bare, Diagnostics.empty]
  have hlength : p.bare.ahead.length ≤ past.length := Nat.le_refl _
  have h := scriptIn_onto passes afterStatement hlength
  rw [hp] at h
  rw [h]
  exact ⟨rfl, rfl⟩

/-- Whether a statement stands before the parser matters at a separator alone. -/
theorem scriptIn_afterStatement (passes : Nat) (afterStatement : Bool) {p : Parser}
    (h : p.current.kind ≠ .semicolon) :
    scriptIn passes afterStatement p = scriptIn passes false p := by
  cases passes with
  | zero => rfl
  | succ passes => simp [scriptIn, check, h]

/-- A separator behind a statement is like one that no statement stands before, but for the
warning. -/
theorem scriptIn_redundant (passes : Nat) {p : Parser} (h : p.current.kind = .semicolon) :
    (scriptIn (passes + 1) true p).1 = (scriptIn (passes + 1) false p).1 ∧
      ∃ later,
        (scriptIn (passes + 1) false p).2.diagnostics.messages =
          p.diagnostics.messages ++
            (found p.ahead.tail ++ redundant p.current.location :: later) ∧
        (scriptIn (passes + 1) true p).2.diagnostics.messages =
          p.diagnostics.messages ++ (found p.ahead.tail ++ later) := by
  rw [scriptIn_separator h, scriptIn_separator h]
  obtain ⟨hsilent, hsilentMessages⟩ := scriptIn_bare passes false (separator true p)
  obtain ⟨hwarned, hwarnedMessages⟩ := scriptIn_bare passes false (separator false p)
  have hbare : (separator false p).bare = (separator true p).bare := rfl
  have hadvance := advance_messages p
  rw [advance_ahead] at hadvance
  rw [hbare] at hwarned hwarnedMessages
  refine ⟨hsilent.trans hwarned.symm,
    (scriptIn passes false (separator true p).bare).2.diagnostics.messages, ?_, ?_⟩
  · rw [hwarnedMessages]
    simp [separator, warn, Diagnostics.warning, Diagnostics.add, redundant, hadvance]
  · rw [hsilentMessages]
    simp [separator, hadvance]

theorem scriptIn_flag {passes : Nat} (afterStatement : Bool) {p : Parser}
    (h : p.ahead.length ≤ passes) (hp : p.diagnostics.messages = []) :
    (scriptIn passes afterStatement p).1 = (scriptIn passes false p).1 ∧
      if afterStatement ∧ p.check .semicolon then
        ∃ later,
          (scriptIn passes false p).2.diagnostics.messages =
            found p.ahead.tail ++ redundant p.current.location :: later ∧
          (scriptIn passes afterStatement p).2.diagnostics.messages =
            found p.ahead.tail ++ later
      else
        (scriptIn passes afterStatement p).2.diagnostics.messages =
          (scriptIn passes false p).2.diagnostics.messages := by
  by_cases hs : p.current.kind = .semicolon
  · cases afterStatement with
    | false => simp
    | true =>
      obtain ⟨t, rest, hahead, -⟩ := ahead_of_kind (p := p) (by simp [hs])
      obtain ⟨passes, rfl⟩ : ∃ k, passes = k + 1 := ⟨passes - 1, by simp [hahead] at h; omega⟩
      simpa [check, hs, hp] using scriptIn_redundant passes hs
  · simp [check, hs, scriptIn_afterStatement passes afterStatement hs]

theorem Moves.finish_eq {p q : Parser} (h : Moves p q) : q.finish = p.finish := by
  induction h with
  | refl => rfl
  | advance _ ih =>
    rw [← ih]
    unfold Parser.advance
    split <;> rfl
  | nest _ _ ih | blocks _ _ ih | note _ _ ih => exact ih

/-- The fault of the next token has been reported. -/
theorem Moves.reported {p q : Parser} (h : Moves p q)
    (hp : ∀ d ∈ found p.ahead, d ∈ p.diagnostics.messages) :
    ∀ d ∈ found q.ahead, d ∈ q.diagnostics.messages := by
  induction h with
  | refl => exact hp
  | @advance q _ ih =>
    intro d hd
    rw [advance_messages]
    exact List.mem_append_right _ hd
  | nest _ _ ih | blocks _ _ ih => exact ih
  | note _ _ ih => exact fun d hd => List.mem_append_left _ (ih d hd)

/-- From here on a script is parsed as a new parser does it with the tokens that are left. -/
structure ResumesAfresh (text : String) (s : Progress) : Prop where
  nesting : s.parser.nesting = 0
  openBlocks : s.parser.openBlocks = 0
  tokens : s.parser.ahead <:+ (TokenStream.ofString text).tokens
  finish : s.parser.finish = (TokenStream.ofString text).finish
  statements :
    (Script.parse text).1.statements = s.statements ++ s.parser.fresh.script.1.statements
  /-- The new parser reports the fault of the next token once more. -/
  reported : ∀ d ∈ found s.parser.ahead, d ∈ s.parser.diagnostics.messages
  /-- Apart from that the messages are the same, unless a statement stands before a separator that
  is the next token.  The new parser knows of no such statement and warns. -/
  messages : ∃ more rest,
    s.parser.fresh.script.2.diagnostics.messages = found s.parser.ahead ++ more ∧
    (Script.parse text).2.messages = s.parser.diagnostics.messages ++ rest ∧
    if s.afterStatement ∧ s.parser.check .semicolon then
      ∃ later, more = found s.parser.ahead.tail ++ redundant s.parser.current.location :: later ∧
        rest = found s.parser.ahead.tail ++ later
    else rest = more

/-- What the loop does from a pass on is the rest of the parse. -/
theorem parse_eq_after (text : String) (n : Nat) {s : Progress}
    (hs : s = Progress.after (ofTokens (.ofString text)) n) :
    (Script.parse text).1.statements =
        s.statements ++ (scriptIn s.parser.ahead.length s.afterStatement s.parser).1 ∧
      (Script.parse text).2 =
        (scriptIn s.parser.ahead.length s.afterStatement s.parser).2.diagnostics := by
  let start := ofTokens (.ofString text)
  obtain ⟨more, hmore⟩ := Nat.exists_eq_add_of_le (Progress.after_moves start n).length_le
  have hloop : scriptIn start.ahead.length false start =
      Progress.finishIn s.parser.ahead.length s := by
    rw [← scriptIn_enough n (Nat.le_refl _), ← Progress.finishIn_after, ← hs, hmore, ← hs]
    unfold Progress.finishIn
    rw [scriptIn_enough more (Nat.le_refl _)]
  exact ⟨congrArg Prod.fst hloop, congrArg (·.2.diagnostics) hloop⟩

/-- After any number of statements and errors, parsing resumes as if it began there. -/
theorem parse_resumes (text : String) (n : Nat) :
    ResumesAfresh text (Progress.after (ofTokens (.ofString text)) n) := by
  have hmoves := Progress.after_moves (ofTokens (.ofString text)) n
  have hcounters := Progress.after_counters (p := ofTokens (.ofString text)) rfl n
  obtain ⟨hstatements, hmessages⟩ := parse_eq_after text n rfl
  generalize Progress.after (ofTokens (.ofString text)) n = s at *
  obtain ⟨body, flag, p⟩ := s
  dsimp only at hmoves hcounters hstatements hmessages
  obtain ⟨hrest, hrestMessages⟩ := scriptIn_bare p.ahead.length flag p
  obtain ⟨hfresh, hfreshMessages⟩ := scriptIn_bare p.ahead.length false p.fresh
  rw [fresh_bare hcounters] at hfresh hfreshMessages
  have hflag := scriptIn_flag flag (p := p.bare) (Nat.le_refl _) rfl
  constructor
  case nesting => exact congrArg Prod.fst hcounters
  case openBlocks => exact congrArg Prod.snd hcounters
  case tokens => exact hmoves.suffix
  case finish => exact hmoves.finish_eq
  case statements =>
    rw [hstatements, hrest]
    exact congrArg (body ++ ·) (hflag.1.trans hfresh.symm)
  case reported => exact hmoves.reported fun d hd => hd
  case messages =>
    rw [hmessages]
    exact ⟨_, _, hfreshMessages, hrestMessages, hflag.2⟩

end Parser
end ScriptEngine
