/-
The count of open blocks follows the keywords.

Inside a statement the parser counts a block exactly where it consumes the keyword that
opens one, and takes it off the count where it consumes the `end` (`Tallied`).  No function
of the grammar stops between the two, so this also holds where a statement fails
(`statement_tallies`).  At a failure the count is therefore the number of block keywords
consumed less the number of `end`s (`Tallied.balance`).

A function of the grammar reports warnings alone.  Errors are reported between statements,
and faults of the lexer when their tokens come next.
-/
import ScriptEngine.Proofs.Parser.Counters
import ScriptEngine.Proofs.Parser.Derivation

namespace ScriptEngine

/-- Whether a token of the kind opens a block. -/
def TokenKind.opensBlock : TokenKind → Bool
  | .if_ | .while_ => true
  | _ => false

/-- The codes of the warnings. -/
def warningCodes : List String := ["W001", "W002"]

namespace Parser

/-- The moves of the grammar: a keyword that opens or closes a block is consumed together with the
count. -/
inductive Tallied (p : Parser) : Parser → Prop where
  | refl : Tallied p p
  | advance {q : Parser} : Tallied p q → q.current.kind.opensBlock = false →
      q.current.kind ≠ .end_ → Tallied p q.advance
  | nest {q : Parser} (n : Nat) : Tallied p q → Tallied p { q with nesting := n }
  | opening {q : Parser} : Tallied p q → q.current.kind.opensBlock = true →
      Tallied p { q.advance with openBlocks := q.advance.openBlocks + 1 }
  | closing {q : Parser} : Tallied p q → q.current.kind = .end_ → 0 < q.openBlocks →
      Tallied p { q.advance with openBlocks := q.advance.openBlocks - 1 }
  | warn {q : Parser} {code : String} (text : String) (l : Location) : Tallied p q →
      code ∈ warningCodes → Tallied p (q.warn code text l)

/-! ## What tallied moves keep -/

/-- How many blocks the tokens open. -/
def opened (ts : List Token) : Nat := ts.countP fun t => t.kind.opensBlock

/-- How many blocks the tokens close. -/
def closed (ts : List Token) : Nat := ts.countP fun t => t.kind = .end_

theorem advance_openBlocks (p : Parser) : p.advance.openBlocks = p.openBlocks :=
  congrArg Prod.snd (advance_counters p)

theorem advance_nil {p : Parser} (h : p.ahead = []) : p.advance = p := by
  simp [advance, h]

/-- Consuming the next token puts it behind those consumed before. -/
theorem tokens_consume {ts us : List Token} {p : Parser} (h : ts = us ++ p.tokens)
    (hp : p.ahead ≠ []) : ts = (us ++ [p.current]) ++ p.advance.tokens := by
  obtain ⟨s, rest, hahead⟩ := List.exists_cons_of_ne_nil hp
  simp [h, tokens, advance_ahead, current, hahead]

theorem ahead_ne_nil {p : Parser} (h : p.current.kind ≠ .eof) : p.ahead ≠ [] := by
  obtain ⟨s, rest, hahead, -⟩ := ahead_of_kind h
  simp [hahead]

theorem opened_concat (ts : List Token) (t : Token) :
    opened (ts ++ [t]) = opened ts + if t.kind.opensBlock then 1 else 0 := by
  simp [opened, List.countP_append, List.countP_cons]

theorem closed_concat (ts : List Token) (t : Token) :
    closed (ts ++ [t]) = closed ts + if t.kind = .end_ then 1 else 0 := by
  simp [closed, List.countP_append, List.countP_cons]

namespace Tallied

variable {p q r : Parser}

theorem trans (h : Tallied p q) (g : Tallied q r) : Tallied p r := by
  induction g with
  | refl => exact h
  | advance _ ho hc ih => exact .advance ih ho hc
  | nest n _ ih => exact .nest n ih
  | opening _ ho ih => exact .opening ih ho
  | closing _ hk hb ih => exact .closing ih hk hb
  | warn text l _ hc ih => exact .warn text l ih hc

theorem moves (h : Tallied p q) : Moves p q := by
  induction h with
  | refl => exact .refl
  | advance _ _ _ ih => exact .advance ih
  | nest n _ ih => exact .nest n ih
  | opening _ _ ih => exact .blocks _ (.advance ih)
  | closing _ _ _ ih => exact .blocks _ (.advance ih)
  | warn _ _ _ _ ih => exact .note _ ih

/-- The tokens consumed open as many blocks as they close and leave open. -/
theorem balance (h : Tallied p q) : ∃ consumed, p.tokens = consumed ++ q.tokens ∧
    p.openBlocks + opened consumed = q.openBlocks + closed consumed := by
  induction h with
  | refl => exact ⟨[], rfl, rfl⟩
  | nest _ _ ih | warn _ _ _ _ ih => exact ih
  | @advance q _ ho hc ih =>
    by_cases hend : q.ahead = []
    · rwa [advance_nil hend]
    · obtain ⟨consumed, htokens, hcount⟩ := ih
      refine ⟨consumed ++ [q.current], tokens_consume htokens hend, ?_⟩
      simp only [opened_concat, closed_concat, ho, hc, advance_openBlocks, if_false]
      simpa using hcount
  | @opening q _ ho ih =>
    obtain ⟨consumed, htokens, hcount⟩ := ih
    have hc : q.current.kind ≠ .end_ := by rintro hk; simp [hk, TokenKind.opensBlock] at ho
    have hend : q.ahead ≠ [] := ahead_ne_nil (by rintro hk; simp [hk, TokenKind.opensBlock] at ho)
    refine ⟨consumed ++ [q.current], tokens_consume htokens hend, ?_⟩
    simp only [opened_concat, closed_concat, ho, hc, advance_openBlocks, if_true, if_false]
    omega
  | @closing q _ hk hb ih =>
    obtain ⟨consumed, htokens, hcount⟩ := ih
    have ho : TokenKind.end_.opensBlock = false := rfl
    have hend : q.ahead ≠ [] := ahead_ne_nil (by simp [hk])
    refine ⟨consumed ++ [q.current], tokens_consume htokens hend, ?_⟩
    simp only [opened_concat, closed_concat, ho, hk, advance_openBlocks, if_true,
      Bool.false_eq_true, if_false]
    omega

end Tallied

/-! ## Steps that keep the tally -/

/-- The parser behind a step, also where the step failed. -/
def ending {α : Type} : EStateM.Result SyntaxError Parser α → Parser
  | .ok _ q => q
  | .error _ q => q

/-- The step makes tallied moves alone, whether it succeeds or fails. -/
def Tallies {α : Type} (p : Parser) (x : Parse α) : Prop := Tallied p (ending (x p))

namespace Tallies

variable {α β : Type} {p : Parser} {x : Parse α} {f : α → Parse β}

theorem ok (h : Tallies p x) {a : α} {q : Parser} (hx : x p = .ok a q) : Tallied p q := by
  unfold Tallies at h
  rwa [hx] at h

theorem error (h : Tallies p x) {e : SyntaxError} {q : Parser} (hx : x p = .error e q) :
    Tallied p q := by
  unfold Tallies at h
  rwa [hx] at h

theorem bind (hx : Tallies p x) (hf : ∀ a q, x p = .ok a q → Tallies q (f a)) :
    Tallies p (x >>= f) := by
  unfold Tallies
  rw [bind_apply]
  cases h : x p with
  | ok a q => exact (hx.ok h).trans (hf a q h)
  | error e q => exact hx.error h

theorem get_bind {f : Parser → Parse β} (h : Tallies p (f p)) : Tallies p (get >>= f) := h

theorem pure (a : α) : Tallies p (pure a) := .refl

theorem throw (e : SyntaxError) : Tallies p (throw e : Parse α) := .refl

theorem failHere (fault : TokenKind → SyntaxFault) : Tallies p (failHere fault : Parse α) := .refl

theorem giveUp : Tallies p (giveUp : Parse α) := .refl

theorem ite {c : Prop} [Decidable c] {y : Parse α} (hx : c → Tallies p x)
    (hy : ¬c → Tallies p y) : Tallies p (if c then x else y) := by
  split
  · exact hx ‹_›
  · exact hy ‹_›

theorem nest (f : Nat → Nat) :
    Tallies p (modify fun p => { p with nesting := f p.nesting } : Parse PUnit) :=
  Tallied.nest _ .refl

theorem warnEmpty (keyword : Token) (word : String) (isEmpty : Bool) :
    Tallies p (warnEmpty keyword word isEmpty) := by
  show Tallied p (if isEmpty then _ else p)
  split
  · exact .warn _ _ .refl (by decide)
  · exact .refl

/-! A token that neither opens nor closes a block can be consumed by itself. -/

theorem take (ho : p.current.kind.opensBlock = false) (hc : p.current.kind ≠ .end_) :
    Tallies p take := .advance .refl ho hc

theorem take_of {kind : TokenKind} (hk : p.current.kind = kind)
    (ho : kind.opensBlock = false := by rfl) (hc : kind ≠ .end_ := by decide) :
    Tallies p Parser.take := take (hk ▸ ho) (hk ▸ hc)

theorem eat {kind : TokenKind} (ho : kind.opensBlock = false) (hc : kind ≠ .end_) :
    Tallies p (eat kind) := by
  unfold Tallies Parser.eat
  split
  · next h =>
    have hk := current_of_check h
    exact .advance .refl (hk ▸ ho) (hk ▸ hc)
  · exact .refl

theorem expect {kind : TokenKind} (ho : kind.opensBlock = false) (hc : kind ≠ .end_) :
    Tallies p (expect kind) := by
  unfold Tallies Parser.expect
  split
  · next h =>
    have hk := current_of_check h
    exact .advance .refl (hk ▸ ho) (hk ▸ hc)
  · exact .refl

theorem separator (afterStatement : Bool) (h : p.check .semicolon = true) :
    Tallies p (modify (separator afterStatement) : Parse PUnit) := by
  have hk := current_of_check h
  have hadvance : Tallied p p.advance := .advance .refl (by simp [hk, TokenKind.opensBlock])
    (by simp [hk])
  show Tallied p (Parser.separator afterStatement p)
  unfold Parser.separator
  split
  · exact hadvance
  · exact .warn _ _ hadvance (by decide)

/-! The keywords of a block come with the count. -/

theorem open_bind {f : PUnit → Parse β} (hk : p.current.kind.opensBlock = true)
    (hf : ∀ q, q.openBlocks = p.openBlocks + 1 → Tallies q (f ⟨⟩)) :
    Tallies p (Parser.take >>= fun _ => openBlock >>= f) := by
  have hmove : Tallied p { p.advance with openBlocks := p.advance.openBlocks + 1 } :=
    .opening .refl hk
  exact hmove.trans (hf _ (by rw [advance_openBlocks]))

theorem close_bind {f : PUnit → Parse β} (hb : 0 < p.openBlocks) (hf : ∀ q, Tallies q (f ⟨⟩)) :
    Tallies p (Parser.expect .end_ >>= fun _ => closeBlock >>= f) := by
  unfold Tallies
  rw [bind_apply, Parser.expect]
  by_cases h : p.check .end_ = true
  · have hmove : Tallied p { p.advance with openBlocks := p.advance.openBlocks - 1 } :=
      .closing .refl (current_of_check h) hb
    rw [if_pos h]
    exact hmove.trans (hf _)
  · rw [if_neg h]
    exact .refl

end Tallies

/-- Every function of a bundle keeps the tally. -/
structure Calls.Tallying (c : Calls) : Prop where
  expr : ∀ p power, Tallies p (c.expr power)
  chain : ∀ p power left, Tallies p (c.chain power left)
  operand : ∀ p, Tallies p c.operand
  arguments : ∀ p, Tallies p c.arguments
  items : ∀ p, Tallies p c.items
  statement : ∀ p, Tallies p c.statement
  block : ∀ p opener mayElse afterStatement, Tallies p (c.block opener mayElse afterStatement)

theorem memberName_tallies (p : Parser) : Tallies p memberName := by
  refine .get_bind (.ite (fun h => ?_) fun _ => .failHere _)
  exact (Tallies.take_of (current_of_check h)).bind fun _ _ _ => .pure _

theorem leaf_tallies (e : Expr) {p : Parser} {kind : TokenKind} (hk : p.current.kind = kind)
    (ho : kind.opensBlock = false := by rfl) (hc : kind ≠ .end_ := by decide) :
    Tallies p (leaf e) := (Tallies.take_of hk ho hc).bind fun _ _ _ => .pure _

namespace Calls.Tallying

variable {c : Calls} (h : c.Tallying)
include h

theorem exprBody (p : Parser) (power : Nat) : Tallies p (c.exprBody power) :=
  (h.operand p).bind fun left q _ => h.chain q power left

theorem chainBody (p : Parser) (power : Nat) (left : Expr) :
    Tallies p (c.chainBody power left) := by
  refine .get_bind (.ite (fun hdot => .ite (fun _ => .pure _) fun _ => ?_) fun _ => ?_)
  · refine (Tallies.take_of (current_of_check hdot)).bind fun _ q _ => ?_
    refine (memberName_tallies q).bind fun name r _ => ?_
    refine .get_bind (.ite (fun _ => ?_) fun _ => h.chain r power _)
    exact (h.arguments r).bind fun args s _ => h.chain s power _
  · split
    · exact .pure _
    · next op hop =>
      have hk : p.current.kind.opensBlock = false ∧ p.current.kind ≠ .end_ := by
        cases hkind : p.current.kind <;> simp_all [BinaryOp.ofToken?, TokenKind.opensBlock]
      refine .ite (fun _ => .pure _) fun _ => .ite (fun _ => .pure _) fun _ => ?_
      refine (Tallies.take hk.1 hk.2).bind fun _ q _ => ?_
      exact (h.expr q _).bind fun right r _ => h.chain r power _

theorem operandBody (p : Parser) : Tallies p c.operandBody := by
  refine .get_bind ?_
  dsimp only
  split
  · next hk =>
    refine (Tallies.take_of hk).bind fun t q _ => ?_
    split
    · exact .pure _
    · exact .throw _
  · next hk => exact leaf_tallies _ hk
  · next hk => exact leaf_tallies _ hk
  · next hk => exact leaf_tallies _ hk
  · next hk =>
    refine (Tallies.take_of hk).bind fun t q _ => .get_bind (.ite (fun _ => ?_) fun _ => .pure _)
    exact (h.arguments q).bind fun args r _ => .pure _
  · next hk =>
    refine (Tallies.take_of hk).bind fun t q _ => ?_
    refine (Tallies.nest (· + 1)).bind fun _ r _ => (h.expr r 0).bind fun inner s _ => ?_
    refine (Tallies.expect rfl (by decide)).bind fun _ u _ => ?_
    exact (Tallies.nest (· - 1)).bind fun _ _ _ => .pure _
  · next hk =>
    exact (Tallies.take_of hk).bind fun t q _ => (h.expr q _).bind fun e r _ => .pure _
  · next hk =>
    exact (Tallies.take_of hk).bind fun t q _ => (h.expr q _).bind fun e r _ => .pure _
  · exact .throw _
  · exact .failHere _

theorem argumentsBody (p : Parser) : Tallies p c.argumentsBody := by
  refine (Tallies.expect rfl (by decide)).bind fun _ q _ => ?_
  refine (Tallies.eat rfl (by decide)).bind fun found r _ => ?_
  cases found with
  | some t => exact .pure _
  | none =>
    refine (Tallies.nest (· + 1)).bind fun _ s _ => (h.items s).bind fun args u _ => ?_
    exact (Tallies.nest (· - 1)).bind fun _ _ _ => .pure _

theorem itemsBody (p : Parser) : Tallies p c.itemsBody := by
  refine (h.expr p 0).bind fun first q _ => ?_
  refine (Tallies.eat rfl (by decide)).bind fun found r _ => ?_
  cases found with
  | some t => exact (h.items r).bind fun more s _ => .pure _
  | none =>
    refine (Tallies.eat rfl (by decide)).bind fun closed s _ => ?_
    cases closed with
    | some t => exact .pure _
    | none => exact .failHere _

theorem condition (p : Parser) : Tallies p c.condition := by
  refine (Tallies.expect rfl (by decide)).bind fun _ q _ => (h.expr q 0).bind fun e r _ => ?_
  exact (Tallies.expect rfl (by decide)).bind fun _ s _ => .pure _

theorem simple (p : Parser) : Tallies p c.simple := by
  refine (h.expr p 0).bind fun left q _ => ?_
  refine (Tallies.eat rfl (by decide)).bind fun found r _ => ?_
  cases found with
  | none => exact .pure _
  | some t =>
    refine (h.expr r 0).bind fun value s _ => ?_
    split
    · exact .pure _
    · exact .pure _
    · exact .throw _

theorem alternative (p : Parser) (opener : Token) : Tallies p (c.alternative opener) := by
  refine (Tallies.eat rfl (by decide)).bind fun found q _ => ?_
  cases found with
  | some t => exact (h.block q _ _ _).bind fun body r _ => .pure _
  | none => exact .pure _

theorem printBody (p : Parser) (t : Token) (newline : Bool) {kind : TokenKind}
    (hk : p.current.kind = kind) (ho : kind.opensBlock = false := by rfl)
    (hc : kind ≠ .end_ := by decide) : Tallies p (c.printBody t newline) :=
  (Tallies.take_of hk ho hc).bind fun _ q _ => (h.arguments q).bind fun _ _ _ => .pure _

theorem blockBody (p : Parser) (opener : Token) (mayElse afterStatement : Bool) :
    Tallies p (c.blockBody opener mayElse afterStatement) := by
  refine .get_bind (.ite (fun _ => .pure _) fun _ => .ite (fun _ => .throw _) fun _ =>
    .ite (fun hc => ?_) fun _ => ?_)
  · exact (Tallies.separator afterStatement hc).bind fun _ q _ => h.block q _ _ _
  · exact (h.statement p).bind fun first q _ => (h.block q _ _ _).bind fun more r _ => .pure _

/-! The parts of a block statement leave the count as they find it, so its block is still open
where its `end` is consumed. -/

variable (level : c.Level)
include level

theorem branchBody (p : Parser) (t : Token) (hp : p.current.kind = .if_) :
    Tallies p (c.branchBody t) := by
  refine .open_bind (by rw [hp]; rfl) fun q hq => ?_
  refine (h.condition q).bind fun condition r hr => ?_
  refine (h.block r _ _ _).bind fun thenBody s hs => ?_
  refine (h.alternative s _).bind fun elseBody u hu => ?_
  have hopen : u.counters = q.counters :=
    (level.alternative t s _ u hu rfl).trans
      ((level.block _ _ _ r _ s hs rfl).trans (level.condition q _ r hr rfl))
  have hcount : u.openBlocks = q.openBlocks := congrArg Prod.snd hopen
  refine .close_bind (by omega) fun v => ?_
  exact (Tallies.warnEmpty _ _ _).bind fun _ _ _ => .pure _

theorem loopBody (p : Parser) (t : Token) (hp : p.current.kind = .while_) :
    Tallies p (c.loopBody t) := by
  refine .open_bind (by rw [hp]; rfl) fun q hq => ?_
  refine (h.condition q).bind fun condition r hr => ?_
  refine (h.block r _ _ _).bind fun body s hs => ?_
  have hopen : s.counters = q.counters :=
    (level.block _ _ _ r _ s hs rfl).trans (level.condition q _ r hr rfl)
  have hcount : s.openBlocks = q.openBlocks := congrArg Prod.snd hopen
  refine .close_bind (by omega) fun v => ?_
  exact (Tallies.warnEmpty _ _ _).bind fun _ _ _ => .pure _

theorem statementBody (p : Parser) : Tallies p c.statementBody := by
  refine .get_bind ?_
  dsimp only
  split
  · next hk => exact h.branchBody level p _ hk
  · next hk => exact h.loopBody level p _ hk
  · next hk => exact h.printBody p _ _ hk
  · next hk => exact h.printBody p _ _ hk
  · exact .throw _
  · exact .throw _
  · exact h.simple p

end Calls.Tallying

theorem callsIn_tallying (n : Nat) : (callsIn n).Tallying := by
  induction n with
  | zero =>
    rw [callsIn_zero]
    constructor <;> intros <;> exact .giveUp
  | succ n ih =>
    rw [callsIn_succ]
    exact ⟨ih.exprBody, ih.chainBody, ih.operandBody, ih.argumentsBody, ih.itemsBody,
      ih.statementBody (callsIn_level n), ih.blockBody⟩

/-- A statement keeps the tally, whether it parses or fails. -/
theorem statement_tallies (p : Parser) : Tallies p statement := by
  have h : Tallies p (statementIn p.budget) := (callsIn_tallying p.budget).statement p
  unfold Tallies at h ⊢
  unfold statement
  exact h

end Parser
end ScriptEngine
