/-
The grammar without its step counts.

Two bundles of functions agree up to `n` when they give the same answers wherever
`n` steps are enough, and none of these answers is that the steps are used up.
Bodies over agreeing bundles agree up to `n + 1`, so the number of steps does not
matter once it is large enough (`callsIn_agree`).

`settled` are the functions that start with the budget.  They satisfy the
equations of their bodies (`expr_eq`, `chain_eq` and the others), and what
follows about the parser uses these equations alone.
-/
import ScriptEngine.Proofs.Parser.Calls

namespace ScriptEngine
namespace Parser

/-- Two steps give one answer at a parser, and it is not that the steps are used up. -/
structure Steady {α : Type} (p : Parser) (x y : Parse α) : Prop where
  same : x p = y p
  steps : ∀ {e q}, x p = .error e q → e.fault ≠ .outOfSteps

namespace Steady

variable {α β : Type} {p : Parser} {k : Nat} {x y : Parse α} {f g : α → Parse β}

theorem symm (h : Steady p x y) : Steady p y x :=
  ⟨h.same.symm, fun hy => h.steps (h.same.trans hy)⟩

theorem of_eq {z : Parse α} (h : Steady p x y) (hz : z p = y p) : Steady p x z :=
  ⟨h.same.trans hz.symm, h.steps⟩

theorem bind (h : Steady p x y) (ho : Orderly p k x)
    (hf : ∀ a q, q.ahead.length + k ≤ p.ahead.length → Steady q (f a) (g a)) :
    Steady p (x >>= f) (y >>= g) := by
  constructor
  · rw [bind_apply, bind_apply, ← h.same]
    cases hx : x p with
    | ok a q => exact (hf a q (ho.ok hx).2).same
    | error e q => rfl
  · intro e r hr
    rw [bind_apply] at hr
    split at hr
    · next a q hx => exact (hf a q (ho.ok hx).2).steps hr
    · next e' q hx =>
      cases hr
      exact h.steps hx

theorem get_bind {f g : Parser → Parse β} (h : Steady p (f p) (g p)) :
    Steady p (get >>= f) (get >>= g) := ⟨h.same, fun hx => h.steps hx⟩

theorem pure (a : α) : Steady p (pure a) (pure a : Parse α) :=
  ⟨rfl, fun h => nomatch h⟩

theorem throw {e : SyntaxError} (he : e.fault ≠ .outOfSteps) :
    Steady p (throw e) (throw e : Parse α) := by
  refine ⟨rfl, ?_⟩
  intro e' q h
  cases h
  exact he

theorem unexpected {fault : TokenKind → SyntaxFault} (hf : ∀ kind, fault kind ≠ .outOfSteps) :
    (p.unexpected fault).fault ≠ .outOfSteps := by
  unfold Parser.unexpected
  dsimp only
  split
  · simp
  · exact hf _

theorem failHere {fault : TokenKind → SyntaxFault} (hf : ∀ kind, fault kind ≠ .outOfSteps) :
    Steady p (failHere fault) (failHere fault : Parse α) := by
  refine ⟨rfl, ?_⟩
  intro e q h
  cases h
  exact unexpected hf

theorem take : Steady p take take := ⟨rfl, fun h => nomatch h⟩

theorem modify (m : Parser → Parser) : Steady p (modify m) (modify m : Parse PUnit) :=
  ⟨rfl, fun h => nomatch h⟩

theorem eat (kind : TokenKind) : Steady p (eat kind) (eat kind) := by
  refine ⟨rfl, ?_⟩
  intro e q h
  unfold Parser.eat at h
  split at h <;> cases h

theorem expect (kind : TokenKind) : Steady p (expect kind) (expect kind) := by
  refine ⟨rfl, ?_⟩
  intro e q h
  unfold Parser.expect at h
  split at h <;> cases h
  exact unexpected (by simp)

theorem ite {c : Prop} [Decidable c] {x' y' : Parse α} (hx : c → Steady p x y)
    (hy : ¬c → Steady p x' y') : Steady p (if c then x else x') (if c then y else y') := by
  split
  · exact hx ‹_›
  · exact hy ‹_›

theorem memberName : Steady p memberName memberName :=
  .get_bind (.ite (fun _ => take.bind .take fun _ _ _ => .pure _) fun _ => .failHere (by simp))

theorem leaf (e : Expr) : Steady p (leaf e) (leaf e) :=
  take.bind .take fun _ _ _ => .pure _

end Steady

/-- Two bundles give the same answers where `n` steps are enough.  A function that calls another
one at the same token needs more steps than it; the differences are at most three, and a token
is worth four. -/
structure Calls.Agree (n : Nat) (c d : Calls) : Prop where
  expr : ∀ p power, 4 * p.ahead.length + 2 ≤ n → Steady p (c.expr power) (d.expr power)
  chain : ∀ p power left, 4 * p.ahead.length + 1 ≤ n →
    Steady p (c.chain power left) (d.chain power left)
  operand : ∀ p, 4 * p.ahead.length + 1 ≤ n → Steady p c.operand d.operand
  arguments : ∀ p, 4 * p.ahead.length + 1 ≤ n → Steady p c.arguments d.arguments
  items : ∀ p, 4 * p.ahead.length + 3 ≤ n → Steady p c.items d.items
  statement : ∀ p, 4 * p.ahead.length + 3 ≤ n → Steady p c.statement d.statement
  block : ∀ p opener mayElse afterStatement, 4 * p.ahead.length + 4 ≤ n →
    Steady p (c.block opener mayElse afterStatement) (d.block opener mayElse afterStatement)

namespace Calls.Agree

variable {n : Nat} {c d : Calls}

theorem symm (h : Agree n c d) : Agree n d c where
  expr p power hn := (h.expr p power hn).symm
  chain p power left hn := (h.chain p power left hn).symm
  operand p hn := (h.operand p hn).symm
  arguments p hn := (h.arguments p hn).symm
  items p hn := (h.items p hn).symm
  statement p hn := (h.statement p hn).symm
  block p opener mayElse afterStatement hn := (h.block p opener mayElse afterStatement hn).symm

theorem mono {k : Nat} (h : Agree n c d) (hk : k ≤ n) : Agree k c d where
  expr p power hn := h.expr p power (by omega)
  chain p power left hn := h.chain p power left (by omega)
  operand p hn := h.operand p (by omega)
  arguments p hn := h.arguments p (by omega)
  items p hn := h.items p (by omega)
  statement p hn := h.statement p (by omega)
  block p opener mayElse afterStatement hn := h.block p opener mayElse afterStatement (by omega)

variable (h : Agree n c d) (t : c.Tidy) (p : Parser)
include h t

theorem exprBody (power : Nat) (hn : 4 * p.ahead.length + 2 ≤ n + 1) :
    Steady p (c.exprBody power) (d.exprBody power) :=
  (h.operand p (by omega)).bind (t.operand p) fun left q _ => h.chain q power left (by omega)

theorem chainBody (power : Nat) (left : Expr) (hn : 4 * p.ahead.length + 1 ≤ n + 1) :
    Steady p (c.chainBody power left) (d.chainBody power left) := by
  refine .get_bind (.ite (fun hdot => .ite (fun _ => .pure _) fun _ => ?_) fun _ => ?_)
  · have hk : p.current.kind ≠ .eof := by rw [current_of_check hdot]; decide
    refine Steady.take.bind (.take_kind hk) fun _ q hq => ?_
    refine Steady.memberName.bind (memberName_orderly q) fun name r hr => ?_
    refine .get_bind (.ite (fun _ => ?_) fun _ => h.chain r power _ (by omega))
    refine (h.arguments r (by omega)).bind (t.arguments r) fun args s hs => ?_
    exact h.chain s power _ (by omega)
  · split
    · exact .pure _
    · next op hop =>
      refine .ite (fun _ => .pure _) fun _ => .ite (fun _ => .pure _) fun _ => ?_
      have hk : p.current.kind ≠ .eof := by
        intro hk
        rw [hk] at hop
        cases hop
      refine Steady.take.bind (.take_kind hk) fun _ q hq => ?_
      refine (h.expr q _ (by omega)).bind (t.expr q _) fun right r hr => ?_
      exact h.chain r power _ (by omega)

theorem operandBody (hn : 4 * p.ahead.length + 1 ≤ n + 1) :
    Steady p c.operandBody d.operandBody := by
  refine .get_bind ?_
  dsimp only
  split
  · refine Steady.take.bind .take fun _ q _ => ?_
    split
    · exact .pure _
    · exact .throw (by simp)
  · exact .leaf _
  · exact .leaf _
  · exact .leaf _
  · next hk =>
    refine Steady.take.bind (.take_kind (by simp [hk])) fun _ q hq => ?_
    refine .get_bind (.ite (fun _ => ?_) fun _ => .pure _)
    exact (h.arguments q (by omega)).bind (t.arguments q) fun args r _ => .pure _
  · next hk =>
    refine Steady.take.bind (.take_kind (by simp [hk])) fun _ q hq => ?_
    refine (Steady.modify _).bind (.modify (.nest _ .refl)) fun _ r hr => ?_
    refine (h.expr r 0 (by omega)).bind (t.expr r 0) fun inner s hs => ?_
    refine (Steady.expect _).bind (.expect (by decide)) fun _ u _ => ?_
    exact (Steady.modify _).bind (.modify (.nest _ .refl)) fun _ _ _ => .pure _
  · next hk =>
    refine Steady.take.bind (.take_kind (by simp [hk])) fun _ q hq => ?_
    exact (h.expr q _ (by omega)).bind (t.expr q _) fun e r _ => .pure _
  · next hk =>
    refine Steady.take.bind (.take_kind (by simp [hk])) fun _ q hq => ?_
    exact (h.expr q _ (by omega)).bind (t.expr q _) fun e r _ => .pure _
  · exact .throw (by simp)
  · exact .failHere (by simp)

theorem argumentsBody (hn : 4 * p.ahead.length + 1 ≤ n + 1) :
    Steady p c.argumentsBody d.argumentsBody := by
  refine (Steady.expect _).bind (.expect (by decide)) fun _ q hq => ?_
  refine (Steady.eat _).bind (.eat _) fun found r hr => ?_
  cases found with
  | some _ => exact .pure _
  | none =>
    refine (Steady.modify _).bind (.modify (.nest _ .refl)) fun _ s hs => ?_
    refine (h.items s (by omega)).bind (t.items s) fun args u _ => ?_
    exact (Steady.modify _).bind (.modify (.nest _ .refl)) fun _ _ _ => .pure _

theorem itemsBody (hn : 4 * p.ahead.length + 3 ≤ n + 1) :
    Steady p c.itemsBody d.itemsBody := by
  refine (h.expr p 0 (by omega)).bind (t.expr p 0) fun first q hq => ?_
  refine (Steady.eat _).bind (.eat _) fun found r hr => ?_
  cases found with
  | some _ => exact (h.items r (by omega)).bind (t.items r) fun more s _ => .pure _
  | none =>
    refine (Steady.eat _).bind (.eat _) fun closed s _ => ?_
    cases closed with
    | some _ => exact .pure _
    | none => exact .failHere (by simp)

theorem condition (hn : 4 * p.ahead.length ≤ n + 2) : Steady p c.condition d.condition := by
  refine (Steady.expect _).bind (.expect (by decide)) fun _ q hq => ?_
  refine (h.expr q 0 (by omega)).bind (t.expr q 0) fun e r _ => ?_
  exact (Steady.expect _).bind (.expect (by decide)) fun _ s _ => .pure _

theorem simple (hn : 4 * p.ahead.length + 2 ≤ n) : Steady p c.simple d.simple := by
  refine (h.expr p 0 hn).bind (t.expr p 0) fun left q hq => ?_
  refine (Steady.eat _).bind (.eat _) fun found r hr => ?_
  cases found with
  | none => exact .pure _
  | some _ =>
    refine (h.expr r 0 (by omega)).bind (t.expr r 0) fun value s _ => ?_
    split
    · exact .pure _
    · exact .pure _
    · exact .throw (by simp)

theorem alternative (opener : Token) (hn : 4 * p.ahead.length + 4 ≤ n) :
    Steady p (c.alternative opener) (d.alternative opener) := by
  refine (Steady.eat _).bind (.eat _) fun found q hq => ?_
  cases found with
  | some _ => exact (h.block q _ _ _ (by omega)).bind (t.block q _ _ _) fun _ _ _ => .pure _
  | none => exact .pure _

theorem branchBody (s : Token) (hp : p.current.kind ≠ .eof) (hn : 4 * p.ahead.length ≤ n) :
    Steady p (c.branchBody s) (d.branchBody s) := by
  refine Steady.take.bind (.take_kind hp) fun _ q hq => ?_
  refine (Steady.modify _).bind (.modify (.blocks _ .refl)) fun _ r hr => ?_
  refine (h.condition t r (by omega)).bind (t.condition r) fun e r hr => ?_
  refine (h.block r _ _ _ (by omega)).bind (t.block r _ _ _) fun thenBody r hr => ?_
  refine (h.alternative t r _ (by omega)).bind (t.alternative r _) fun elseBody r hr => ?_
  refine (Steady.expect _).bind (.expect (by decide)) fun _ r _ => ?_
  refine (Steady.modify _).bind (.modify (.blocks _ .refl)) fun _ r _ => ?_
  exact (Steady.modify _).bind (warnEmpty_orderly _ _ _ r) fun _ _ _ => .pure _

theorem loopBody (s : Token) (hp : p.current.kind ≠ .eof) (hn : 4 * p.ahead.length ≤ n) :
    Steady p (c.loopBody s) (d.loopBody s) := by
  refine Steady.take.bind (.take_kind hp) fun _ q hq => ?_
  refine (Steady.modify _).bind (.modify (.blocks _ .refl)) fun _ r hr => ?_
  refine (h.condition t r (by omega)).bind (t.condition r) fun e r hr => ?_
  refine (h.block r _ _ _ (by omega)).bind (t.block r _ _ _) fun body r hr => ?_
  refine (Steady.expect _).bind (.expect (by decide)) fun _ r _ => ?_
  refine (Steady.modify _).bind (.modify (.blocks _ .refl)) fun _ r _ => ?_
  exact (Steady.modify _).bind (warnEmpty_orderly _ _ _ r) fun _ _ _ => .pure _

theorem printBody (s : Token) (newline : Bool) (hp : p.current.kind ≠ .eof)
    (hn : 4 * p.ahead.length ≤ n) : Steady p (c.printBody s newline) (d.printBody s newline) := by
  refine Steady.take.bind (.take_kind hp) fun _ q hq => ?_
  exact (h.arguments q (by omega)).bind (t.arguments q) fun args r _ => .pure _

theorem statementBody (hn : 4 * p.ahead.length + 3 ≤ n + 1) :
    Steady p c.statementBody d.statementBody := by
  refine .get_bind ?_
  dsimp only
  split
  · next hk => exact h.branchBody t p _ (by simp [hk]) (by omega)
  · next hk => exact h.loopBody t p _ (by simp [hk]) (by omega)
  · next hk => exact h.printBody t p _ _ (by simp [hk]) (by omega)
  · next hk => exact h.printBody t p _ _ (by simp [hk]) (by omega)
  · exact .throw (by simp)
  · exact .throw (by simp)
  · exact h.simple t p (by omega)

theorem blockBody (opener : Token) (mayElse afterStatement : Bool)
    (hn : 4 * p.ahead.length + 4 ≤ n + 1) :
    Steady p (c.blockBody opener mayElse afterStatement)
      (d.blockBody opener mayElse afterStatement) := by
  refine .get_bind (.ite (fun _ => .pure _) fun _ => .ite (fun _ => .throw (by simp)) fun _ =>
    .ite (fun hc => ?_) fun _ => ?_)
  · have hk : p.current.kind ≠ .eof := by rw [current_of_check hc]; decide
    refine (Steady.modify _).bind (separator_orderly hk) fun _ q hq => ?_
    exact h.block q _ _ _ (by omega)
  · refine (h.statement p (by omega)).bind (t.statement p) fun first q hq => ?_
    exact (h.block q _ _ _ (by omega)).bind (t.block q _ _ _) fun more r _ => .pure _

end Calls.Agree

theorem callsIn_agree {n m : Nat} (h : n ≤ m) : Calls.Agree n (callsIn n) (callsIn m) := by
  induction n generalizing m with
  | zero => constructor <;> intros <;> omega
  | succ n ih =>
    obtain ⟨m, rfl⟩ : ∃ k, m = k + 1 := ⟨m - 1, by omega⟩
    have a : Calls.Agree n (callsIn n) (callsIn m) := ih (by omega)
    have t : (callsIn n).Tidy := callsIn_tidy n
    rw [callsIn_succ, callsIn_succ]
    exact ⟨a.exprBody t, a.chainBody t, a.operandBody t, a.argumentsBody t, a.itemsBody t,
      a.statementBody t, a.blockBody t⟩

/-! ## The functions with enough steps -/

/-- Extends an expression by member accesses and operators. -/
def chain (power : Nat) (left : Expr) : Parse Expr := fun p => chainIn p.budget power left p

/-- Parses what an expression begins with. -/
def operand : Parse Expr := fun p => operandIn p.budget p

/-- Parses an argument list in parentheses. -/
def arguments : Parse (List Expr) := fun p => argumentsIn p.budget p

/-- Parses arguments up to the parenthesis that closes them. -/
def items : Parse (List Expr) := fun p => itemsIn p.budget p

/-- Parses the statements of a block. -/
def block (opener : Token) (mayElse afterStatement : Bool) : Parse (List Stmt) := fun p =>
  blockIn p.budget opener mayElse afterStatement p

/-- The functions of the grammar with enough steps. -/
def settled : Calls := ⟨expr, chain, operand, arguments, items, statement, block⟩

/-- Any two numbers of steps that are enough give the same answers. -/
theorem callsIn_meet {k n m : Nat} (hn : k ≤ n) (hm : k ≤ m) :
    Calls.Agree k (callsIn n) (callsIn m) := by
  by_cases h : n ≤ m
  · exact (callsIn_agree h).mono hn
  · exact (callsIn_agree (by omega)).symm.mono hm

theorem callsIn_settled (n : Nat) : Calls.Agree n (callsIn n) settled := by
  have enough : ∀ {k : Nat} (p : Parser), k ≤ 4 → 4 * p.ahead.length + k ≤ n →
      Calls.Agree (4 * p.ahead.length + k) (callsIn n) (callsIn p.budget) := by
    intro k p hk hn
    exact callsIn_meet hn (by simp only [budget]; omega)
  constructor
  · intro p power hn
    exact ((enough p (by omega) hn).expr p power (Nat.le_refl _)).of_eq rfl
  · intro p power left hn
    exact ((enough p (by omega) hn).chain p power left (Nat.le_refl _)).of_eq rfl
  · intro p hn
    exact ((enough p (by omega) hn).operand p (Nat.le_refl _)).of_eq rfl
  · intro p hn
    exact ((enough p (by omega) hn).arguments p (Nat.le_refl _)).of_eq rfl
  · intro p hn
    exact ((enough p (by omega) hn).items p (Nat.le_refl _)).of_eq rfl
  · intro p hn
    exact ((enough p (by omega) hn).statement p (Nat.le_refl _)).of_eq rfl
  · intro p opener mayElse afterStatement hn
    exact ((enough p (by omega) hn).block p opener mayElse afterStatement (Nat.le_refl _)).of_eq rfl

/-- At a parser the budget is one step more than a bundle that agrees with the settled one. -/
theorem exists_agree (p : Parser) :
    ∃ n, p.budget = n + 1 ∧ 4 * p.ahead.length + 4 ≤ n ∧ Calls.Agree n (callsIn n) settled :=
  ⟨4 * p.ahead.length + 7, rfl, by omega, callsIn_settled _⟩

theorem expr_eq (power : Nat) : expr power = settled.exprBody power := by
  funext p
  obtain ⟨n, hb, hn, a⟩ := exists_agree p
  show exprIn p.budget power p = _
  rw [hb, exprIn_succ]
  exact (a.exprBody (callsIn_tidy n) p power (by omega)).same

theorem chain_eq (power : Nat) (left : Expr) :
    chain power left = settled.chainBody power left := by
  funext p
  obtain ⟨n, hb, hn, a⟩ := exists_agree p
  show chainIn p.budget power left p = _
  rw [hb, chainIn_succ]
  exact (a.chainBody (callsIn_tidy n) p power left (by omega)).same

theorem operand_eq : operand = settled.operandBody := by
  funext p
  obtain ⟨n, hb, hn, a⟩ := exists_agree p
  show operandIn p.budget p = _
  rw [hb, operandIn_succ]
  exact (a.operandBody (callsIn_tidy n) p (by omega)).same

theorem arguments_eq : arguments = settled.argumentsBody := by
  funext p
  obtain ⟨n, hb, hn, a⟩ := exists_agree p
  show argumentsIn p.budget p = _
  rw [hb, argumentsIn_succ]
  exact (a.argumentsBody (callsIn_tidy n) p (by omega)).same

theorem items_eq : items = settled.itemsBody := by
  funext p
  obtain ⟨n, hb, hn, a⟩ := exists_agree p
  show itemsIn p.budget p = _
  rw [hb, itemsIn_succ]
  exact (a.itemsBody (callsIn_tidy n) p (by omega)).same

theorem statement_eq : statement = settled.statementBody := by
  funext p
  obtain ⟨n, hb, hn, a⟩ := exists_agree p
  show statementIn p.budget p = _
  rw [hb, statementIn_succ]
  exact (a.statementBody (callsIn_tidy n) p (by omega)).same

theorem block_eq (opener : Token) (mayElse afterStatement : Bool) :
    block opener mayElse afterStatement = settled.blockBody opener mayElse afterStatement := by
  funext p
  obtain ⟨n, hb, hn, a⟩ := exists_agree p
  show blockIn p.budget opener mayElse afterStatement p = _
  rw [hb, blockIn_succ]
  exact (a.blockBody (callsIn_tidy n) p opener mayElse afterStatement (by omega)).same

theorem settled_tidy : settled.Tidy := by
  have t : ∀ p : Parser, Calls.Tidy (callsIn p.budget) := fun p => callsIn_tidy _
  constructor
  · intro p power
    exact ((t p).expr p power).of_eq rfl
  · intro p power left
    exact ((t p).chain p power left).of_eq rfl
  · intro p
    exact ((t p).operand p).of_eq rfl
  · intro p
    exact ((t p).arguments p).of_eq rfl
  · intro p
    exact ((t p).items p).of_eq rfl
  · intro p
    exact ((t p).statement p).of_eq rfl
  · intro p opener mayElse afterStatement
    exact ((t p).block p opener mayElse afterStatement).of_eq rfl

/-- A settled parse of an expression has an answer. -/
theorem expr_steps {p q : Parser} {power : Nat} {e : SyntaxError}
    (h : expr power p = .error e q) : e.fault ≠ .outOfSteps := by
  have a := (callsIn_settled (4 * p.ahead.length + 2)).expr p power (Nat.le_refl _)
  exact a.steps (a.same.trans h)

end Parser
end ScriptEngine
