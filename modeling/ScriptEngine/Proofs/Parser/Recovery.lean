/-
Recovery skips the broken statement and no more.

At a failure the tokens of the statement that were consumed may open more blocks than they
close.  Then parsing resumes behind the first `end` at which, counted from the first token
of the statement, as many blocks are closed as are opened.  Else it resumes at the first
place behind the consumed tokens where a statement can begin: behind a separator, at a
keyword that begins a statement, or at the first token of a line.  A statement that fails
at its first token gives up that token.  Where there is no such place the rest of the text
is skipped (`Resumes`, `parse_recovers`).

What recovery knows of the consumed tokens is the count of open blocks, which follows the
keywords (`Tallied.balance`), the place of the last of them (`Moves.previous`), and that
there is one: the places of the tokens increase, so the next token has moved on from where
the statement began (`Ordered.current_ne`).
-/
import ScriptEngine.Proofs.Parser.Kinds
import ScriptEngine.Proofs.Parser.Resumption
import ScriptEngine.Proofs.Parser.Tally
import ScriptEngine.Proofs.Token.Partition

namespace ScriptEngine

theorem Location.compare_self (l : Location) : l.compare l = .eq := by
  simp [Location.compare]

/-! ## Searching a place -/

/-- The first place from `start` on where `P` holds. -/
def FirstFrom (P : Nat → Prop) (start i : Nat) : Prop :=
  start ≤ i ∧ P i ∧ ∀ j, start ≤ j → j < i → ¬ P j

/-- A search from `start` on goes on from the first place where `P` holds as `onward` says, or ends
at `last` if there is none. -/
def Lands (P : Nat → Prop) (onward : Nat → Nat) (last start place : Nat) : Prop :=
  (∃ i, FirstFrom P start i ∧ place = onward i) ∨ ((∀ i, start ≤ i → ¬ P i) ∧ place = last)

section
variable {P : Nat → Prop} {onward : Nat → Nat} {last start place : Nat}

theorem Lands.here (h : P start) (hplace : place = onward start) :
    Lands P onward last start place :=
  .inl ⟨start, ⟨Nat.le_refl _, h, fun _ hj hlt => absurd hlt (Nat.not_lt.mpr hj)⟩, hplace⟩

/-- A place where `P` does not hold is passed. -/
theorem Lands.pass (hstart : ¬ P start) (h : Lands P onward last (start + 1) place) :
    Lands P onward last start place := by
  have hpass : ∀ j, start ≤ j → (start + 1 ≤ j → ¬ P j) → ¬ P j := by
    intro j hj hlater
    rcases Nat.eq_or_lt_of_le hj with rfl | hlt
    · exact hstart
    · exact hlater hlt
  rcases h with ⟨i, ⟨hi, hP, hfirst⟩, hplace⟩ | ⟨hnone, hplace⟩
  · exact .inl ⟨i, ⟨by omega, hP, fun j hj hlt => hpass j hj fun hj => hfirst j hj hlt⟩, hplace⟩
  · exact .inr ⟨fun j hj => hpass j hj (hnone j), hplace⟩

end

namespace Parser

/-! ## Where parsing resumes -/

/-- The token at a place is an `end`, and up to it as many blocks are closed as are opened. -/
def ClosesAll (ts : List Token) (i : Nat) : Prop :=
  (∃ t, ts[i]? = some t ∧ t.kind = .end_) ∧ closed (ts.take (i + 1)) = opened (ts.take (i + 1))

/-- The token at a place is a separator, a keyword that begins a statement, or the first one of its
line. -/
def Breaks (ts : List Token) (i : Nat) : Prop :=
  ∃ t, ts[i]? = some t ∧ (t.kind = .semicolon ∨ t.kind.startsStatement = true ∨
    ∃ j before, j + 1 = i ∧ ts[j]? = some before ∧ before.location.line < t.location.line)

/-- A separator is skipped; any other token begins the next statement. -/
def pastSeparator (ts : List Token) (i : Nat) : Nat :=
  if (ts[i]?.map (·.kind)) = some .semicolon then i + 1 else i

/-- Where parsing resumes in the tokens from the first one of a statement on, if the statement fails
with the given number of them consumed. -/
inductive Resumes (ts : List Token) (consumed : Nat) : Nat → Prop where
  | blocks {place : Nat} : closed (ts.take consumed) < opened (ts.take consumed) →
      Lands (ClosesAll ts) (· + 1) ts.length consumed place → Resumes ts consumed place
  | line {place : Nat} : closed (ts.take consumed) = opened (ts.take consumed) →
      Lands (Breaks ts) (pastSeparator ts) ts.length (max consumed 1) place →
      Resumes ts consumed place

/-! ## The two ways to skip -/

theorem skipBlocks_cons (depth : Nat) (s : Scanned) (rest : List Scanned) :
    skipBlocks depth (s :: rest) =
      if s.token.kind.opensBlock then skipBlocks (depth + 1) rest + 1
      else if s.token.kind = .end_ then if depth ≤ 1 then 1 else skipBlocks (depth - 1) rest + 1
      else skipBlocks depth rest + 1 := by
  rw [skipBlocks]
  cases s.token.kind <;> rfl

theorem closesAll_iff {before rest : List Token} {t : Token} :
    ClosesAll (before ++ t :: rest) before.length ↔
      t.kind = .end_ ∧ closed (before ++ [t]) = opened (before ++ [t]) := by
  have htake : (before ++ t :: rest).take (before.length + 1) = before ++ [t] := by
    simp [List.take_append, List.take_of_length_le]
  simp [ClosesAll, htake]

/-- Blocks are skipped to the `end` that closes the last of them. -/
theorem skipBlocks_lands (before : List Token) (rest : List Scanned) {depth : Nat}
    (hdepth : 0 < depth) (hcount : opened before = closed before + depth) :
    Lands (ClosesAll (before ++ rest.map (·.token))) (· + 1)
      (before ++ rest.map (·.token)).length before.length
      (before.length + skipBlocks depth rest) := by
  induction rest generalizing before depth with
  | nil =>
    refine .inr ⟨fun i hi h => ?_, by simp [skipBlocks]⟩
    obtain ⟨t, ht, -⟩ := h.1
    simp [List.getElem?_eq_none hi] at ht
  | cons s rest ih =>
    rw [List.map_cons, skipBlocks_cons]
    have hlength : (before ++ [s.token]).length = before.length + 1 := List.length_append
    have hopened := opened_concat before s.token
    have hclosed := closed_concat before s.token
    have onward : ∀ {depth}, 0 < depth →
        opened (before ++ [s.token]) = closed (before ++ [s.token]) + depth →
        Lands (ClosesAll (before ++ s.token :: rest.map (·.token))) (· + 1)
          (before ++ s.token :: rest.map (·.token)).length before.length
          (before.length + (skipBlocks depth rest + 1)) := by
      intro depth hdepth hcount
      have hmore := ih (before ++ [s.token]) hdepth hcount
      rw [List.append_assoc, List.singleton_append, hlength, Nat.add_right_comm] at hmore
      refine Lands.pass (fun h => ?_) hmore
      have hequal := (closesAll_iff.mp h).2
      omega
    by_cases hopen : s.token.kind.opensBlock = true
    · have hend : s.token.kind ≠ .end_ := by
        rintro hk
        simp [hk, TokenKind.opensBlock] at hopen
      rw [if_pos hopen] at hopened ⊢
      rw [if_neg hend] at hclosed
      exact onward (by omega) (by omega)
    · rw [if_neg hopen] at hopened ⊢
      by_cases hend : s.token.kind = .end_
      · rw [if_pos hend] at hclosed ⊢
        by_cases hlast : depth ≤ 1
        · rw [if_pos hlast]
          exact .here (closesAll_iff.mpr ⟨hend, by omega⟩) rfl
        · rw [if_neg hlast]
          exact onward (by omega) (by omega)
      · rw [if_neg hend] at hclosed ⊢
        exact onward hdepth (by omega)

theorem breaks_iff {before rest : List Token} {last t : Token} :
    Breaks (before ++ last :: t :: rest) (before.length + 1) ↔
      t.kind = .semicolon ∨ t.kind.startsStatement = true ∨
        last.location.line < t.location.line := by
  simp [Breaks]

/-- The rest of a line is skipped to where a statement can begin. -/
theorem skipLine_lands (before : List Token) (last : Token) (rest : List Scanned) :
    Lands (Breaks (before ++ last :: rest.map (·.token)))
      (pastSeparator (before ++ last :: rest.map (·.token)))
      (before ++ last :: rest.map (·.token)).length (before.length + 1)
      (before.length + 1 + skipLine last.location rest) := by
  induction rest generalizing before last with
  | nil =>
    refine .inr ⟨fun i hi h => ?_, by simp [skipLine]⟩
    obtain ⟨t, ht, -⟩ := h
    rw [List.getElem?_eq_none (by simpa using hi)] at ht
    cases ht
  | cons s rest ih =>
    rw [List.map_cons, skipLine]
    by_cases hsemi : s.token.kind = .semicolon
    · rw [if_pos hsemi]
      exact .here (breaks_iff.mpr (.inl hsemi)) (by simp [pastSeparator, hsemi])
    rw [if_neg hsemi]
    have stays : pastSeparator (before ++ last :: s.token :: rest.map (·.token))
        (before.length + 1) = before.length + 1 := by
      simp [pastSeparator, hsemi]
    by_cases hstarts : s.token.kind.startsStatement = true
    · rw [if_pos hstarts]
      exact .here (breaks_iff.mpr (.inr (.inl hstarts))) stays.symm
    rw [if_neg hstarts]
    by_cases hline : last.location.line < s.token.location.line
    · rw [if_pos hline]
      exact .here (breaks_iff.mpr (.inr (.inr hline))) stays.symm
    rw [if_neg hline]
    have hlength : (before ++ [last]).length = before.length + 1 := List.length_append
    have hmore := ih (before ++ [last]) s.token
    rw [List.append_assoc, List.singleton_append, hlength, Nat.add_right_comm (before.length + 1)] at hmore
    refine Lands.pass (fun h => ?_) hmore
    rcases breaks_iff.mp h with h | h | h
    · exact hsemi h
    · exact hstarts h
    · exact hline h

/-! ## The parser behind a failure -/

theorem Moves.previous {p q : Parser} (h : Moves p q) : ∃ consumed,
    p.tokens = consumed ++ q.tokens ∧
      ∀ before t, consumed = before ++ [t] → q.previous = t.location := by
  induction h with
  | refl => exact ⟨[], rfl, by simp⟩
  | nest _ _ ih | blocks _ _ ih | note _ _ ih => exact ih
  | @advance q _ ih =>
    by_cases hend : q.ahead = []
    · rwa [advance_nil hend]
    · obtain ⟨consumed, htokens, -⟩ := ih
      refine ⟨consumed ++ [q.current], tokens_consume htokens hend, fun before t h => ?_⟩
      obtain ⟨s, rest, hahead⟩ := List.exists_cons_of_ne_nil hend
      obtain rfl := List.singleton_inj.mp (List.append_inj' h rfl).2
      simp [Parser.advance, current, hahead]

/-- The places of the tokens ahead and that of the end increase. -/
def Ordered (p : Parser) : Prop :=
  (p.ahead.map (·.token.location) ++ [p.finish]).Pairwise fun l m => l.compare m = .lt

theorem ofTokens_ordered (text : String) : Ordered (ofTokens (.ofString text)) := by
  have h := TokenStream.ofString_partitions text
  refine List.pairwise_append.mpr ⟨List.pairwise_map.mpr h.increasing, List.pairwise_singleton _ _,
    fun l hl m hm => ?_⟩
  obtain ⟨s, hs, rfl⟩ := List.mem_map.mp hl
  rw [List.mem_singleton.mp hm]
  show _ = Ordering.lt
  have hend := h.partition.before_end s hs
  rwa [List.nil_append, ← h.finish] at hend

theorem Ordered.of_moves {p q : Parser} (h : Ordered p) (hm : Moves p q) : Ordered q := by
  obtain ⟨front, hfront⟩ := hm.suffix
  unfold Ordered at h ⊢
  rw [← hfront, List.map_append, List.append_assoc, ← hm.finish_eq] at h
  exact (List.pairwise_append.mp h).2.1

/-- Once a token has been consumed, the next one stands elsewhere. -/
theorem Ordered.current_ne {p q : Parser} (h : Ordered p) (hm : Moves p q)
    (hlt : q.ahead.length < p.ahead.length) : q.current.location ≠ p.current.location := by
  obtain ⟨front, hfront⟩ := hm.suffix
  cases front with
  | nil => simp [← hfront] at hlt
  | cons s front =>
    have hcurrent : p.current = s.token := by simp [current, ← hfront]
    have hmem : q.current.location ∈ (front ++ q.ahead).map (·.token.location) ++ [p.finish] := by
      unfold current
      split
      · next t rest hahead => simp [hahead]
      · simp [Token.eof, hm.finish_eq]
    unfold Ordered at h
    rw [← hfront, List.cons_append, List.map_cons, List.cons_append, List.pairwise_cons] at h
    have hbefore := h.1 _ hmem
    rw [hcurrent]
    intro hsame
    rw [hsame, Location.compare_self] at hbefore
    cases hbefore

theorem report_eq (p : Parser) (e : SyntaxError) :
    ∃ ds, p.report e = { p with diagnostics := ds } := by
  unfold report
  split
  · exact ⟨p.diagnostics, rfl⟩
  · exact ⟨_, rfl⟩

/-- A statement that failed behind its first token gives up no other. -/
theorem abandon_stays {start : Location} {e : SyntaxError} {q : Parser}
    (h : q.current.location ≠ start) : (abandon start e q).ahead = q.ahead ∧
      (abandon start e q).previous = q.previous ∧
      (abandon start e q).openBlocks = q.openBlocks := by
  obtain ⟨ds, hreport⟩ := report_eq q e
  have hcurrent := report_current q e
  unfold abandon
  rw [hreport] at hcurrent ⊢
  simp [hcurrent, h]

/-- A statement that failed at its first token gives it up. -/
theorem abandon_advances {start : Location} {e : SyntaxError} {q : Parser}
    (h : q.current.location = start) (hk : q.current.kind ≠ .eof) :
    (abandon start e q).ahead = q.ahead.tail ∧
      (abandon start e q).previous = q.current.location ∧
      (abandon start e q).openBlocks = q.openBlocks := by
  obtain ⟨ds, hreport⟩ := report_eq q e
  have hcurrent := report_current q e
  obtain ⟨s, rest, hahead, hs⟩ := ahead_of_kind hk
  unfold abandon
  rw [hreport] at hcurrent ⊢
  dsimp only at hcurrent ⊢
  rw [hcurrent, if_pos h, hs]
  simp [advance, hahead]

theorem advanceBy_ahead (n : Nat) (p : Parser) : (advanceBy n p).ahead = p.ahead.drop n := by
  induction n generalizing p with
  | zero => rfl
  | succ n ih => rw [advanceBy, ih, advance_ahead, List.drop_tail]

theorem synchronize_tokens (p : Parser) : p.synchronize.tokens =
    p.tokens.drop (if p.openBlocks = 0 then skipLine p.previous p.ahead
      else skipBlocks p.openBlocks p.ahead) := by
  unfold tokens synchronize
  rw [advanceBy_ahead, List.map_drop]

/-- A statement began at `p` and failed at `q` with the given number of its tokens consumed, and
parsing resumes at `r`. -/
structure Skipped (p q r : Parser) (consumed place : Nat) : Prop where
  within : consumed ≤ p.tokens.length
  failed : q.tokens = p.tokens.drop consumed
  /-- The blocks that are still open are those of the tokens consumed. -/
  count : q.openBlocks + closed (p.tokens.take consumed) = opened (p.tokens.take consumed)
  resumes : Resumes p.tokens consumed place
  tokens : r.tokens = p.tokens.drop place

section
variable {p q : Parser} {e : SyntaxError}

/-- A statement that failed at its first token opened no block. -/
theorem recover_first (h : Moves p q) (hk : p.current.kind ≠ .eof) (hsame : q.tokens = p.tokens)
    (hopen : q.openBlocks = 0) :
    ∃ place, Skipped p q (recover p.current.location e q) 0 place := by
  have hcurrent : q.current = p.current :=
    h.current_eq hk (by simpa [tokens] using Nat.le_of_eq (congrArg List.length hsame).symm)
  have hkind : q.current.kind ≠ .eof := hcurrent ▸ hk
  obtain ⟨hahead, hlast, hblocks⟩ :=
    abandon_advances (e := e) (congrArg Token.location hcurrent) hkind
  have hall : p.tokens = p.current :: q.ahead.tail.map (·.token) := by
    obtain ⟨s, rest, hq, hs⟩ := ahead_of_kind hkind
    rw [← hsame, ← hcurrent, hs]
    simp [tokens, hq]
  refine ⟨1 + skipLine p.current.location q.ahead.tail, Nat.zero_le _, hsame, ?_, .line rfl ?_, ?_⟩
  · rw [hopen]
    rfl
  · rw [hall]
    exact skipLine_lands [] p.current q.ahead.tail
  · rw [recover_eq, synchronize_tokens, hblocks, hopen, if_pos rfl, hlast, hcurrent, tokens, hahead,
      hall]
    simp [Nat.add_comm 1]

/-- A statement that failed behind a token gives up no more tokens than are skipped. -/
theorem recover_behind (h : Moves p q) (hp : Ordered p) {before : List Token} {t : Token}
    (hsplit : p.tokens = before ++ [t] ++ q.tokens) (hlast : q.previous = t.location)
    (hcount : q.openBlocks + closed (before ++ [t]) = opened (before ++ [t])) :
    ∃ place, Skipped p q (recover p.current.location e q) (before ++ [t]).length place := by
  have hall : p.tokens = before ++ t :: q.ahead.map (·.token) := by
    rw [hsplit, List.append_assoc, List.singleton_append, tokens]
  have hlength : (before ++ [t]).length = before.length + 1 := List.length_append
  have htake : p.tokens.take (before ++ [t]).length = before ++ [t] := by
    rw [hsplit, List.take_left]
  have hdrop : q.tokens = p.tokens.drop (before ++ [t]).length := by
    rw [hsplit, List.drop_left]
  have hbehind : q.ahead.length < p.ahead.length := by
    have hsize := congrArg List.length hall
    simp [tokens] at hsize
    omega
  obtain ⟨hahead, hprevious, hblocks⟩ := abandon_stays (e := e) (hp.current_ne h hbehind)
  have hkept : (abandon p.current.location e q).tokens = q.tokens := by
    rw [tokens, hahead, tokens]
  refine ⟨(before ++ [t]).length + if q.openBlocks = 0 then skipLine t.location q.ahead
    else skipBlocks q.openBlocks q.ahead, by simp [hall], hdrop, by rwa [htake], ?_, ?_⟩
  · by_cases hopen : q.openBlocks = 0
    · rw [if_pos hopen]
      refine .line (by rw [htake]; omega) ?_
      rw [hall, hlength, Nat.max_eq_left (by omega)]
      exact skipLine_lands before t q.ahead
    · rw [if_neg hopen]
      refine .blocks (by rw [htake]; omega) ?_
      rw [hsplit]
      exact skipBlocks_lands _ q.ahead (by omega) (by omega)
  · rw [recover_eq, synchronize_tokens, hblocks, hahead, hprevious, hlast, hkept, ← List.drop_drop,
      ← hdrop]

/-- Recovery resumes where it should, if the failure kept the tally. -/
theorem recover_skips (h : Tallied p q) (hp : Ordered p) (hopen : p.openBlocks = 0)
    (hk : p.current.kind ≠ .eof) :
    ∃ consumed place, Skipped p q (recover p.current.location e q) consumed place := by
  obtain ⟨taken, htokens, hcount⟩ := h.balance
  obtain ⟨taken', htokens', hprevious⟩ := h.moves.previous
  obtain rfl : taken = taken' := List.append_cancel_right (htokens.symm.trans htokens')
  rw [hopen, Nat.zero_add] at hcount
  -- whether a token was consumed decides whether one is given up
  rcases List.eq_nil_or_concat taken with rfl | ⟨before, t, rfl⟩
  · exact ⟨0, recover_first h.moves hk htokens.symm hcount.symm⟩
  · rw [List.concat_eq_append] at *
    exact ⟨_, recover_behind h.moves hp htokens (hprevious before t rfl) hcount.symm⟩

end

/-! ## A pass that fails -/

/-- The next pass parses a statement, and the statement fails. -/
def Progress.Fails (s : Progress) (e : SyntaxError) (q : Parser) : Prop :=
  s.parser.atEnd = false ∧ s.parser.check .semicolon = false ∧ statement s.parser = .error e q

theorem Progress.Fails.next_eq {s : Progress} {e : SyntaxError} {q : Parser} (h : s.Fails e q) :
    s.next = ⟨s.statements, false, recover s.parser.current.location e q⟩ := by
  obtain ⟨hend, hsemi, hfail⟩ := h
  simp [next, hend, hsemi, hfail]

/-- The statement at `s` failed at `q`, and parsing goes on behind it. -/
structure Recovers (text : String) (s : Progress) (q : Parser) : Prop where
  tokens : s.parser.tokens <:+ tokensOf text
  skips : ∃ consumed place, Skipped s.parser q s.next.parser consumed place
  /-- The script consists of the statements so far and those parsed from there on. -/
  rest : (Script.parse text).1.statements = s.statements ++
    (scriptIn s.next.parser.ahead.length false s.next.parser).1

/-- Wherever a statement of the script fails, the broken statement is skipped and no more. -/
theorem parse_recovers (text : String) (n : Nat) {e : SyntaxError} {q : Parser}
    (h : (Progress.after (ofTokens (.ofString text)) n).Fails e q) :
    Recovers text (Progress.after (ofTokens (.ofString text)) n) q := by
  have hmoves := Progress.after_moves (ofTokens (.ofString text)) n
  have hcounters := Progress.after_counters (p := ofTokens (.ofString text)) rfl n
  have hrest := (parse_eq_after text (n + 1) rfl).1
  rw [Progress.after, h.next_eq] at hrest
  generalize Progress.after (ofTokens (.ofString text)) n = s at *
  obtain ⟨hend, -, hfail⟩ := id h
  refine ⟨hmoves.suffix.map _, ?_, h.next_eq ▸ hrest⟩
  rw [h.next_eq]
  exact recover_skips ((statement_tallies _).error hfail)
    ((ofTokens_ordered text).of_moves hmoves) (congrArg Prod.snd hcounters) (current_ne_eof hend)

/-- A broken condition gives up its block, and parsing goes on in the next line. -/
theorem parse_recovers_block :
    ∃ e q, let s := Progress.after (ofTokens (.ofString "if (x ==) print(x) end\ny = 2")) 0
      s.Fails e q ∧ q.openBlocks = 1 ∧ Recovers "if (x ==) print(x) end\ny = 2" s q ∧
        s.next.parser.tokens.map (·.lexeme) = ["y", "=", "2"] := by
  let p := ofTokens (.ofString "if (x ==) print(x) end\ny = 2")
  have hend : p.atEnd = false := by decide +kernel
  have hsemi : p.check .semicolon = false := by decide +kernel
  have hopen : (ending (statement p)).openBlocks = 1 := by decide +kernel
  have hrest : (Progress.begin p).next.parser.tokens.map (·.lexeme) = ["y", "=", "2"] := by
    decide +kernel
  cases h : statement p with
  | ok a q =>
    rw [h] at hopen
    have hclosed : q.openBlocks = 0 := congrArg Prod.snd (statement_counters h)
    exact absurd (hopen.symm.trans hclosed) Nat.one_ne_zero
  | error e q =>
    rw [h] at hopen
    have hfails : (Progress.after p 0).Fails e q := ⟨hend, hsemi, h⟩
    exact ⟨e, q, hfails, hopen, parse_recovers _ 0 hfails, hrest⟩

end Parser
end ScriptEngine
