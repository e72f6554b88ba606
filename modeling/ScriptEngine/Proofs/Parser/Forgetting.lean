/-
Parsing does not look back.

A parser remembers the messages so far and the place of the last token.  No function of the
grammar reads the messages, and none reads the place of a token that it has not consumed
itself.  So each does the same with another past (`callsIn_forgets`): the results are the
same, and what it adds to the messages.

Only a chain of operators may ask for the line of the token before it, and it stands behind
an operand.
-/
import ScriptEngine.Proofs.Parser.Calls

namespace ScriptEngine

namespace Diagnostics

/-- The collection of some messages. -/
def ofMessages (messages : List Diagnostic) : Diagnostics :=
  ⟨messages, messages.any Diagnostic.isError, messages.any Diagnostic.isWarning, rfl, rfl⟩

@[simp] theorem ofMessages_messages (ds : Diagnostics) : ofMessages ds.messages = ds :=
  ext_messages rfl

theorem ofMessages_add (before : List Diagnostic) (ds : Diagnostics) (d : Diagnostic) :
    (ofMessages (before ++ ds.messages)).add d = ofMessages (before ++ (ds.add d).messages) := by
  ext1
  exact List.append_assoc _ _ _

end Diagnostics

namespace Parser

/-- What a parser remembers from when a number of tokens were ahead: the place of the last token,
which the next one replaces, and the messages. -/
structure Past where
  length : Nat
  previous : Location
  messages : List Diagnostic

namespace Past

/-- The parser with a past of its own. -/
def onto (past : Past) (p : Parser) : Parser :=
  { p with
    previous := if p.ahead.length < past.length then p.previous else past.previous
    diagnostics := .ofMessages (past.messages ++ p.diagnostics.messages) }

variable {past : Past} {p : Parser}

@[simp] theorem onto_current : (past.onto p).current = p.current := rfl

@[simp] theorem onto_check (kind : TokenKind) : (past.onto p).check kind = p.check kind := rfl

theorem onto_atLineStart (h : p.ahead.length < past.length) :
    (past.onto p).atLineStart = p.atLineStart := by
  have hprevious : (past.onto p).previous = p.previous := if_pos h
  unfold atLineStart
  rw [hprevious, onto_current]
  rfl

theorem reveal_append (ahead : List Scanned) (before : List Diagnostic) (ds : Diagnostics) :
    reveal ahead (.ofMessages (before ++ ds.messages)) =
      .ofMessages (before ++ (reveal ahead ds).messages) := by
  unfold reveal
  split
  · exact Diagnostics.ofMessages_add before ds _
  · rfl

theorem onto_advance (h : p.ahead.length ≤ past.length) :
    (past.onto p).advance = past.onto p.advance := by
  obtain ⟨ahead, finish, previous, diagnostics, openBlocks, nesting⟩ := p
  cases ahead with
  | nil => rfl
  | cons t rest =>
    have hrest : rest.length < past.length := h
    simp [advance, onto, reveal_append, hrest]

theorem onto_warn (code text : String) (l : Location) :
    (past.onto p).warn code text l = past.onto (p.warn code text l) := by
  unfold warn onto Diagnostics.warning
  rw [Diagnostics.ofMessages_add]

theorem onto_report (e : SyntaxError) : (past.onto p).report e = past.onto (p.report e) := by
  unfold report
  split
  · rfl
  · simp [onto, Diagnostics.error, Diagnostics.ofMessages_add]

theorem onto_separator (afterStatement : Bool) (h : p.ahead.length ≤ past.length) :
    separator afterStatement (past.onto p) = past.onto (separator afterStatement p) := by
  unfold separator
  split
  · exact onto_advance h
  · rw [onto_advance h, onto_warn]
    rfl

theorem onto_advanceBy (n : Nat) (h : p.ahead.length ≤ past.length) :
    advanceBy n (past.onto p) = past.onto (advanceBy n p) := by
  induction n generalizing p with
  | zero => rfl
  | succ n ih =>
    have hle := (Moves.advance (Moves.refl (p := p))).length_le
    rw [advanceBy, onto_advance h, ih (Nat.le_trans hle h)]
    rfl

theorem onto_synchronize (h : p.ahead.length < past.length) :
    (past.onto p).synchronize = past.onto p.synchronize := by
  have hline : skipLine (past.onto p).previous (past.onto p).ahead =
      skipLine p.previous p.ahead := by
    rw [show (past.onto p).previous = p.previous from if_pos h]
    rfl
  unfold synchronize
  rw [hline]
  exact onto_advanceBy (p := { p with openBlocks := 0 }) _ (Nat.le_of_lt h)

end Past

/-! ## Steps that do not look back -/

/-- The result of a step with another past. -/
def carry {α : Type} (past : Past) :
    EStateM.Result SyntaxError Parser α → EStateM.Result SyntaxError Parser α
  | .ok a q => .ok a (past.onto q)
  | .error e q => .error e (past.onto q)

/-- The step does the same with another past. -/
def Forgets {α : Type} (past : Past) (p : Parser) (x : Parse α) : Prop :=
  x (past.onto p) = carry past (x p)

namespace Forgets

variable {α β : Type} {past : Past} {p : Parser} {k : Nat} {x : Parse α} {f : α → Parse β}

theorem bind (hx : Forgets past p x) (ho : Orderly p k x)
    (hf : ∀ a q, q.ahead.length + k ≤ p.ahead.length → Forgets past q (f a)) :
    Forgets past p (x >>= f) := by
  unfold Forgets at hx ⊢
  rw [bind_apply, bind_apply, hx]
  cases hq : x p with
  | ok a q => exact hf a q (ho.ok hq).2
  | error e q => rfl

theorem get_bind {f : Parser → Parse β} (hf : f (past.onto p) = f p)
    (h : Forgets past p (f p)) : Forgets past p (get >>= f) := by
  show f (past.onto p) (past.onto p) = _
  rw [hf]
  exact h

theorem pure (a : α) : Forgets past p (pure a) := rfl

theorem throw (e : SyntaxError) : Forgets past p (throw e : Parse α) := rfl

theorem failHere (fault : TokenKind → SyntaxFault) :
    Forgets past p (failHere fault : Parse α) := rfl

theorem giveUp : Forgets past p (giveUp : Parse α) := rfl

theorem ite {c : Prop} [Decidable c] {y : Parse α} (hx : Forgets past p x)
    (hy : Forgets past p y) : Forgets past p (if c then x else y) := by
  split
  · exact hx
  · exact hy

theorem modify (g : Parser → Parser) (h : g (past.onto p) = past.onto (g p)) :
    Forgets past p (modify g : Parse PUnit) :=
  congrArg (EStateM.Result.ok PUnit.unit) h

theorem enterParens : Forgets past p enterParens := modify _ rfl

theorem leaveParens : Forgets past p leaveParens := modify _ rfl

theorem openBlock : Forgets past p openBlock := modify _ rfl

theorem closeBlock : Forgets past p closeBlock := modify _ rfl

theorem warnEmpty (keyword : Token) (word : String) (isEmpty : Bool) :
    Forgets past p (warnEmpty keyword word isEmpty) := by
  refine modify _ ?_
  split
  · exact Past.onto_warn _ _ _
  · rfl

variable (hp : p.ahead.length ≤ past.length)
include hp

theorem take : Forgets past p take :=
  congrArg (EStateM.Result.ok p.current) (Past.onto_advance hp)

theorem eat (kind : TokenKind) : Forgets past p (eat kind) := by
  unfold Forgets Parser.eat
  rw [Past.onto_check, Past.onto_advance hp]
  split <;> rfl

theorem expect (kind : TokenKind) : Forgets past p (expect kind) := by
  unfold Forgets Parser.expect
  rw [Past.onto_check, Past.onto_advance hp]
  split <;> rfl

theorem leaf (e : Expr) : Forgets past p (leaf e) := (take hp).bind .take fun _ _ _ => .pure _

theorem memberName : Forgets past p memberName :=
  get_bind rfl (ite ((take hp).bind .take fun _ _ _ => .pure _) (failHere _))

end Forgets

/-- Every function of a bundle does the same with another past.  A chain may ask for the line of
the last token, which has to be consumed since. -/
structure Calls.Forgetful (past : Past) (c : Calls) : Prop where
  expr : ∀ p power, p.ahead.length ≤ past.length → Forgets past p (c.expr power)
  chain : ∀ p power left, p.ahead.length < past.length → Forgets past p (c.chain power left)
  operand : ∀ p, p.ahead.length ≤ past.length → Forgets past p c.operand
  arguments : ∀ p, p.ahead.length ≤ past.length → Forgets past p c.arguments
  items : ∀ p, p.ahead.length ≤ past.length → Forgets past p c.items
  statement : ∀ p, p.ahead.length ≤ past.length → Forgets past p c.statement
  block : ∀ p opener mayElse afterStatement, p.ahead.length ≤ past.length →
    Forgets past p (c.block opener mayElse afterStatement)

namespace Calls.Forgetful

variable {past : Past} {c : Calls} (h : c.Forgetful past) (t : c.Tidy) (p : Parser)
include h t

theorem exprBody (power : Nat) (hp : p.ahead.length ≤ past.length) :
    Forgets past p (c.exprBody power) :=
  (h.operand p hp).bind (t.operand p) fun left q _ => h.chain q power left (by omega)

theorem chainBody (power : Nat) (left : Expr) (hp : p.ahead.length < past.length) :
    Forgets past p (c.chainBody power left) := by
  have hle := Nat.le_of_lt hp
  refine .get_bind (by simp only [Past.onto_check, Past.onto_current, Past.onto_atLineStart hp]) ?_
  refine .ite (.ite (.pure _) ?_) ?_
  · refine (Forgets.take hle).bind .take fun _ q _ => ?_
    refine (Forgets.memberName (by omega)).bind (memberName_orderly q) fun name r _ => ?_
    refine .get_bind rfl (.ite ?_ (h.chain r power _ (by omega)))
    exact (h.arguments r (by omega)).bind (t.arguments r) fun args s _ =>
      h.chain s power _ (by omega)
  · split
    · exact .pure _
    · refine .ite (.pure _) (.ite (.pure _) ?_)
      refine (Forgets.take hle).bind .take fun _ q _ => ?_
      exact (h.expr q _ (by omega)).bind (t.expr q _) fun right r _ => h.chain r power _ (by omega)

theorem operandBody (hp : p.ahead.length ≤ past.length) : Forgets past p c.operandBody := by
  refine .get_bind rfl ?_
  dsimp only
  split
  · refine (Forgets.take hp).bind .take fun _ q _ => ?_
    split
    · exact .pure _
    · exact .throw _
  · exact .leaf hp _
  · exact .leaf hp _
  · exact .leaf hp _
  · next hk =>
    refine (Forgets.take hp).bind (.take_kind (by simp [hk])) fun _ q hq => ?_
    have hline : (past.onto q).atLineStart = q.atLineStart := Past.onto_atLineStart (by omega)
    refine .get_bind (by simp only [Past.onto_check, hline]) ?_
    exact .ite ((h.arguments q (by omega)).bind (t.arguments q) fun args r _ => .pure _)
      (.pure _)
  · refine (Forgets.take hp).bind .take fun _ q _ => ?_
    refine Forgets.enterParens.bind (.modify (.nest _ .refl)) fun _ r _ => ?_
    refine (h.expr r 0 (by omega)).bind (t.expr r 0) fun inner s _ => ?_
    refine (Forgets.expect (by omega) _).bind (.expect (by decide)) fun _ u _ => ?_
    exact Forgets.leaveParens.bind (.modify (.nest _ .refl)) fun _ _ _ => .pure _
  · refine (Forgets.take hp).bind .take fun _ q _ => ?_
    exact (h.expr q _ (by omega)).bind (t.expr q _) fun e r _ => .pure _
  · refine (Forgets.take hp).bind .take fun _ q _ => ?_
    exact (h.expr q _ (by omega)).bind (t.expr q _) fun e r _ => .pure _
  · exact .throw _
  · exact .failHere _

theorem argumentsBody (hp : p.ahead.length ≤ past.length) : Forgets past p c.argumentsBody := by
  refine (Forgets.expect hp _).bind (.expect (by decide)) fun _ q _ => ?_
  refine (Forgets.eat (by omega) _).bind (.eat _) fun found r _ => ?_
  cases found with
  | some _ => exact .pure _
  | none =>
    refine Forgets.enterParens.bind (.modify (.nest _ .refl)) fun _ s _ => ?_
    refine (h.items s (by omega)).bind (t.items s) fun args u _ => ?_
    exact Forgets.leaveParens.bind (.modify (.nest _ .refl)) fun _ _ _ => .pure _

theorem itemsBody (hp : p.ahead.length ≤ past.length) : Forgets past p c.itemsBody := by
  refine (h.expr p 0 hp).bind (t.expr p 0) fun first q _ => ?_
  refine (Forgets.eat (by omega) _).bind (.eat _) fun found r _ => ?_
  cases found with
  | some _ => exact (h.items r (by omega)).bind (t.items r) fun more s _ => .pure _
  | none =>
    refine (Forgets.eat (by omega) _).bind (.eat _) fun closed s _ => ?_
    cases closed with
    | some _ => exact .pure _
    | none => exact .failHere _

theorem condition (hp : p.ahead.length ≤ past.length) : Forgets past p c.condition := by
  refine (Forgets.expect hp _).bind (.expect (by decide)) fun _ q _ => ?_
  refine (h.expr q 0 (by omega)).bind (t.expr q 0) fun e r _ => ?_
  exact (Forgets.expect (by omega) _).bind (.expect (by decide)) fun _ s _ => .pure _

theorem simple (hp : p.ahead.length ≤ past.length) : Forgets past p c.simple := by
  refine (h.expr p 0 hp).bind (t.expr p 0) fun left q _ => ?_
  refine (Forgets.eat (by omega) _).bind (.eat _) fun found r _ => ?_
  cases found with
  | none => exact .pure _
  | some _ =>
    refine (h.expr r 0 (by omega)).bind (t.expr r 0) fun value s _ => ?_
    split
    · exact .pure _
    · exact .pure _
    · exact .throw _

theorem alternative (opener : Token) (hp : p.ahead.length ≤ past.length) :
    Forgets past p (c.alternative opener) := by
  refine (Forgets.eat hp _).bind (.eat _) fun found q _ => ?_
  cases found with
  | some _ => exact (h.block q _ _ _ (by omega)).bind (t.block q _ _ _) fun _ _ _ => .pure _
  | none => exact .pure _

theorem branchBody (s : Token) (hp : p.ahead.length ≤ past.length) :
    Forgets past p (c.branchBody s) := by
  refine (Forgets.take hp).bind .take fun _ q _ => ?_
  refine Forgets.openBlock.bind (.modify (.blocks _ .refl)) fun _ r _ => ?_
  refine (h.condition t r (by omega)).bind (t.condition r) fun e r _ => ?_
  refine (h.block r _ _ _ (by omega)).bind (t.block r _ _ _) fun thenBody r _ => ?_
  refine (h.alternative t r _ (by omega)).bind (t.alternative r _) fun elseBody r _ => ?_
  refine (Forgets.expect (by omega) _).bind (.expect (by decide)) fun _ r _ => ?_
  refine Forgets.closeBlock.bind (.modify (.blocks _ .refl)) fun _ r _ => ?_
  exact (Forgets.warnEmpty _ _ _).bind (warnEmpty_orderly _ _ _ r) fun _ _ _ => .pure _

theorem loopBody (s : Token) (hp : p.ahead.length ≤ past.length) :
    Forgets past p (c.loopBody s) := by
  refine (Forgets.take hp).bind .take fun _ q _ => ?_
  refine Forgets.openBlock.bind (.modify (.blocks _ .refl)) fun _ r _ => ?_
  refine (h.condition t r (by omega)).bind (t.condition r) fun e r _ => ?_
  refine (h.block r _ _ _ (by omega)).bind (t.block r _ _ _) fun body r _ => ?_
  refine (Forgets.expect (by omega) _).bind (.expect (by decide)) fun _ r _ => ?_
  refine Forgets.closeBlock.bind (.modify (.blocks _ .refl)) fun _ r _ => ?_
  exact (Forgets.warnEmpty _ _ _).bind (warnEmpty_orderly _ _ _ r) fun _ _ _ => .pure _

theorem printBody (s : Token) (newline : Bool) (hp : p.ahead.length ≤ past.length) :
    Forgets past p (c.printBody s newline) := by
  refine (Forgets.take hp).bind .take fun _ q _ => ?_
  exact (h.arguments q (by omega)).bind (t.arguments q) fun args r _ => .pure _

theorem statementBody (hp : p.ahead.length ≤ past.length) : Forgets past p c.statementBody := by
  refine .get_bind rfl ?_
  dsimp only
  split
  · exact h.branchBody t p _ hp
  · exact h.loopBody t p _ hp
  · exact h.printBody t p _ _ hp
  · exact h.printBody t p _ _ hp
  · exact .throw _
  · exact .throw _
  · exact h.simple t p hp

theorem blockBody (opener : Token) (mayElse afterStatement : Bool)
    (hp : p.ahead.length ≤ past.length) :
    Forgets past p (c.blockBody opener mayElse afterStatement) := by
  refine .get_bind rfl (.ite (.pure _) (.ite (.throw _) (.ite ?_ ?_)))
  · refine (Forgets.modify _ (Past.onto_separator _ hp)).bind (.modify (separator_moves _ _))
      fun _ q _ => ?_
    exact h.block q _ _ _ (by omega)
  · refine (h.statement p hp).bind (t.statement p) fun first q _ => ?_
    exact (h.block q _ _ _ (by omega)).bind (t.block q _ _ _) fun more r _ => .pure _

end Calls.Forgetful

theorem callsIn_forgets (past : Past) (n : Nat) : (callsIn n).Forgetful past := by
  induction n with
  | zero =>
    rw [callsIn_zero]
    constructor <;> intros <;> exact .giveUp
  | succ n ih =>
    have t := callsIn_tidy n
    rw [callsIn_succ]
    exact ⟨ih.exprBody t, ih.chainBody t, ih.operandBody t, ih.argumentsBody t, ih.itemsBody t,
      ih.statementBody t, ih.blockBody t⟩

theorem statement_forgets {past : Past} {p : Parser} (hp : p.ahead.length ≤ past.length) :
    Forgets past p statement := by
  have h : Forgets past p (statementIn p.budget) := (callsIn_forgets past p.budget).statement p hp
  unfold Forgets statement
  rw [show (past.onto p).budget = p.budget from rfl]
  exact h

end Parser
end ScriptEngine
