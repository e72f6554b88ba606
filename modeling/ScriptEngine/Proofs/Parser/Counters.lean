/-
A statement gives back what it counts.

Every parenthesis and every block that a function of the grammar opens is closed again
when the function succeeds (`callsIn_level`).  An error leaves the counters as they are,
at any depth; recovery sets both to zero (`recover_counters`).
-/
import ScriptEngine.Proofs.Parser.Calls

namespace ScriptEngine
namespace Parser

/-- The open parentheses and the open blocks. -/
def counters (p : Parser) : Nat × Nat := (p.nesting, p.openBlocks)

/-- The step turns the counters `a` into `b` when it succeeds. -/
def Counts {α : Type} (x : Parse α) (a b : Nat × Nat) : Prop :=
  ∀ p r q, x p = .ok r q → p.counters = a → q.counters = b

theorem advance_counters (p : Parser) : p.advance.counters = p.counters := by
  unfold advance
  split <;> rfl

theorem separator_counters (afterStatement : Bool) (p : Parser) :
    (separator afterStatement p).counters = p.counters := by
  unfold separator
  split <;> exact advance_counters p

namespace Counts

variable {α β : Type} {a b c : Nat × Nat} {n m : Nat} {x : Parse α} {f : α → Parse β}

theorem bind (hx : Counts x a b) (hf : ∀ r, Counts (f r) b c) : Counts (x >>= f) a c := by
  intro p r q h hp
  rw [bind_apply] at h
  split at h
  · next s o ho => exact hf s o r q h (hx p s o ho hp)
  · cases h

theorem get_bind {f : Parser → Parse β} (hf : ∀ p, Counts (f p) a b) :
    Counts (get >>= f) a b := fun p r q h hp => hf p p r q h hp

theorem pure (r : α) : Counts (pure r) a a := by
  intro p s q h hp
  cases h
  exact hp

theorem throw {e : SyntaxError} : Counts (throw e : Parse α) a b := nofun

theorem failHere {fault : TokenKind → SyntaxFault} : Counts (failHere fault : Parse α) a b :=
  nofun

theorem giveUp : Counts (giveUp : Parse α) a b := nofun

theorem ite {d : Prop} [Decidable d] {y : Parse α} (hx : Counts x a b) (hy : Counts y a b) :
    Counts (if d then x else y) a b := by
  split
  · exact hx
  · exact hy

theorem take : Counts take a a := by
  intro p r q h hp
  cases h
  exact (advance_counters p).trans hp

theorem eat (kind : TokenKind) : Counts (eat kind) a a := by
  intro p r q h hp
  unfold Parser.eat at h
  split at h <;> cases h
  · exact (advance_counters p).trans hp
  · exact hp

theorem expect (kind : TokenKind) : Counts (expect kind) a a := by
  intro p r q h hp
  unfold Parser.expect at h
  split at h <;> cases h
  exact (advance_counters p).trans hp

theorem modify {g : Parser → Parser} (hg : ∀ p, p.counters = a → (g p).counters = b) :
    Counts (modify g : Parse PUnit) a b := by
  intro p r q h hp
  cases h
  exact hg p hp

theorem enterParens : Counts enterParens (n, m) (n + 1, m) :=
  modify fun p hp => by
    obtain ⟨rfl, rfl⟩ := Prod.mk.inj hp
    rfl

theorem leaveParens : Counts leaveParens (n + 1, m) (n, m) :=
  modify fun p hp => by
    obtain ⟨hn, rfl⟩ := Prod.mk.inj hp
    simp [counters, hn]

theorem openBlock : Counts openBlock (n, m) (n, m + 1) :=
  modify fun p hp => by
    obtain ⟨rfl, rfl⟩ := Prod.mk.inj hp
    rfl

theorem closeBlock : Counts closeBlock (n, m + 1) (n, m) :=
  modify fun p hp => by
    obtain ⟨rfl, hm⟩ := Prod.mk.inj hp
    simp [counters, hm]

theorem leaf (e : Expr) : Counts (leaf e) a a := take.bind fun _ => pure e

theorem memberName : Counts memberName a a :=
  get_bind fun _ => ite (take.bind fun _ => pure _) failHere

theorem warnEmpty (keyword : Token) (word : String) (isEmpty : Bool) :
    Counts (warnEmpty keyword word isEmpty) a a := by
  refine modify fun p hp => ?_
  split <;> exact hp

end Counts

/-- Every function of a bundle leaves the counters as it finds them. -/
structure Calls.Level (c : Calls) : Prop where
  expr : ∀ {a} power, Counts (c.expr power) a a
  chain : ∀ {a} power left, Counts (c.chain power left) a a
  operand : ∀ {a}, Counts c.operand a a
  arguments : ∀ {a}, Counts c.arguments a a
  items : ∀ {a}, Counts c.items a a
  statement : ∀ {a}, Counts c.statement a a
  block : ∀ {a} opener mayElse afterStatement, Counts (c.block opener mayElse afterStatement) a a

namespace Calls.Level

variable {c : Calls} {a : Nat × Nat} (h : c.Level)
include h

theorem exprBody (power : Nat) : Counts (c.exprBody power) a a :=
  h.operand.bind fun left => h.chain power left

theorem chainBody (power : Nat) (left : Expr) : Counts (c.chainBody power left) a a := by
  refine .get_bind fun p => .ite (.ite (.pure _) ?_) ?_
  · refine Counts.take.bind fun _ => Counts.memberName.bind fun name => ?_
    exact .get_bind fun q => .ite (h.arguments.bind fun args => h.chain power _) (h.chain power _)
  · split
    · exact .pure _
    · refine .ite (.pure _) (.ite (.pure _) ?_)
      exact Counts.take.bind fun _ => (h.expr _).bind fun right => h.chain power _

theorem operandBody : Counts c.operandBody a a := by
  refine .get_bind fun p => ?_
  dsimp only
  split
  · refine Counts.take.bind fun _ => ?_
    split
    · exact .pure _
    · exact .throw
  · exact .leaf _
  · exact .leaf _
  · exact .leaf _
  · refine Counts.take.bind fun _ => .get_bind fun q => ?_
    exact .ite (h.arguments.bind fun args => .pure _) (.pure _)
  · refine Counts.take.bind fun _ => Counts.enterParens.bind fun _ => ?_
    refine (h.expr 0).bind fun inner => (Counts.expect _).bind fun _ => ?_
    exact Counts.leaveParens.bind fun _ => .pure _
  · exact Counts.take.bind fun _ => (h.expr _).bind fun operand => .pure _
  · exact Counts.take.bind fun _ => (h.expr _).bind fun operand => .pure _
  · exact .throw
  · exact .failHere

theorem argumentsBody : Counts c.argumentsBody a a := by
  refine (Counts.expect _).bind fun _ => (Counts.eat _).bind fun found => ?_
  cases found with
  | some _ => exact .pure _
  | none =>
    refine Counts.enterParens.bind fun _ => h.items.bind fun args => ?_
    exact Counts.leaveParens.bind fun _ => .pure _

theorem itemsBody : Counts c.itemsBody a a := by
  refine (h.expr 0).bind fun first => (Counts.eat _).bind fun found => ?_
  cases found with
  | some _ => exact h.items.bind fun more => .pure _
  | none =>
    refine (Counts.eat _).bind fun closed => ?_
    cases closed with
    | some _ => exact .pure _
    | none => exact .failHere

theorem condition : Counts c.condition a a :=
  (Counts.expect _).bind fun _ => (h.expr 0).bind fun _ => (Counts.expect _).bind fun _ => .pure _

theorem simple : Counts c.simple a a := by
  refine (h.expr 0).bind fun left => (Counts.eat _).bind fun found => ?_
  cases found with
  | none => exact .pure _
  | some _ =>
    refine (h.expr 0).bind fun value => ?_
    split
    · exact .pure _
    · exact .pure _
    · exact .throw

theorem alternative (opener : Token) : Counts (c.alternative opener) a a := by
  refine (Counts.eat _).bind fun found => ?_
  cases found with
  | some _ => exact (h.block _ _ _).bind fun body => .pure _
  | none => exact .pure _

theorem branchBody (t : Token) : Counts (c.branchBody t) a a := by
  refine Counts.take.bind fun _ => Counts.openBlock.bind fun _ => ?_
  refine h.condition.bind fun condition => (h.block _ _ _).bind fun thenBody => ?_
  refine (h.alternative _).bind fun elseBody => (Counts.expect _).bind fun _ => ?_
  exact Counts.closeBlock.bind fun _ => (Counts.warnEmpty _ _ _).bind fun _ => .pure _

theorem loopBody (t : Token) : Counts (c.loopBody t) a a := by
  refine Counts.take.bind fun _ => Counts.openBlock.bind fun _ => ?_
  refine h.condition.bind fun condition => (h.block _ _ _).bind fun body => ?_
  refine (Counts.expect _).bind fun _ => Counts.closeBlock.bind fun _ => ?_
  exact (Counts.warnEmpty _ _ _).bind fun _ => .pure _

theorem printBody (t : Token) (newline : Bool) : Counts (c.printBody t newline) a a :=
  Counts.take.bind fun _ => h.arguments.bind fun _ => .pure _

theorem statementBody : Counts c.statementBody a a := by
  refine .get_bind fun p => ?_
  dsimp only
  split
  · exact h.branchBody _
  · exact h.loopBody _
  · exact h.printBody _ _
  · exact h.printBody _ _
  · exact .throw
  · exact .throw
  · exact h.simple

theorem blockBody (opener : Token) (mayElse afterStatement : Bool) :
    Counts (c.blockBody opener mayElse afterStatement) a a := by
  refine .get_bind fun p => .ite (.pure _) (.ite .throw (.ite ?_ ?_))
  · refine (Counts.modify fun q hq => ?_).bind fun _ => h.block _ _ _
    exact (separator_counters _ q).trans hq
  · exact h.statement.bind fun first => (h.block _ _ _).bind fun more => .pure _

end Calls.Level

theorem callsIn_level (n : Nat) : (callsIn n).Level := by
  induction n with
  | zero =>
    rw [callsIn_zero]
    constructor <;> intros <;> exact .giveUp
  | succ n ih =>
    rw [callsIn_succ]
    exact ⟨ih.exprBody, ih.chainBody, ih.operandBody, ih.argumentsBody, ih.itemsBody,
      ih.statementBody, ih.blockBody⟩

theorem statement_counters {p q : Parser} {s : Stmt} (h : statement p = .ok s q) :
    q.counters = p.counters :=
  (callsIn_level p.budget).statement p s q h rfl

theorem advanceBy_counters (n : Nat) (p : Parser) : (advanceBy n p).counters = p.counters := by
  induction n generalizing p with
  | zero => rfl
  | succ n ih => exact (ih p.advance).trans (advance_counters p)

/-- Recovery closes every parenthesis and every block, whatever the failure left open. -/
theorem recover_counters (start : Location) (e : SyntaxError) (p : Parser) :
    (recover start e p).counters = (0, 0) := by
  unfold recover synchronize
  dsimp only
  rw [advanceBy_counters]
  have closed : ∀ q : Parser, q.nesting = 0 →
      ({ q with openBlocks := 0 } : Parser).counters = (0, 0) := by
    intro q hq
    simp [counters, hq]
  split
  · exact closed _ (congrArg Prod.fst (advance_counters { p.report e with nesting := 0 }))
  · exact closed _ rfl

end Parser
end ScriptEngine
