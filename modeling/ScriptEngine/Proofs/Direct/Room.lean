/-
Where the limit does not matter.

An expression whose demand fits above the pending operands evaluates alike with and
without a limit.  So a limit plays a part only in scripts that have an expression with a
greater demand (`Script.evaluate_room`).
-/
import ScriptEngine.Proofs.Code.Depth
import ScriptEngine.Proofs.Direct.Evaluation

namespace ScriptEngine
namespace Direct

variable {functions : FunctionRegistry} {n passes : Nat}

theorem hold_room {pending line : Nat} (h : pending < n) :
    hold (some n) pending line = hold none pending line := by
  funext v
  unfold hold
  dsimp only
  rw [if_pos h]

mutual

theorem expr_room : ∀ (e : Expr) {pending : Nat}, pending + e.demand ≤ n →
    expr functions (some n) pending e = expr functions none pending e
  | .number .., _, h => by rw [expr, expr, hold_room h]
  | .bool .., _, h => by rw [expr, expr, hold_room h]
  | .string .., _, h => by rw [expr, expr, hold_room h]
  | .variable _, _, h => by rw [expr, expr, hold_room h]
  | .binary _ left right, _, h => by
    rw [Expr.demand] at h
    rw [expr, expr, expr_room left (by omega), expr_room right (by omega)]
  | .unary _ _ e, _, h => by
    rw [expr, expr, expr_room e h]
  | .member object _, _, h => by
    rw [Expr.demand] at h
    rw [expr, expr, expr_room object (by omega)]
  | .method object _ args, _, h => by
    rw [Expr.demand] at h
    rw [expr, expr, expr_room object (by omega), exprs_room args (by omega)]
  | .call _ args, pending, h => by
    rw [Expr.demand] at h
    have hargs := exprs_room args (b := 0) (d := pending) (by omega)
    rw [Nat.add_zero] at hargs
    rw [expr, expr, hargs, hold_room (by omega)]
  | .construct _ args, pending, h => by
    rw [Expr.demand] at h
    have hargs := exprs_room args (b := 0) (d := pending) (by omega)
    rw [Nat.add_zero] at hargs
    rw [expr, expr, hargs, hold_room (by omega)]

theorem exprs_room : ∀ (es : List Expr) {d b : Nat}, d + argumentsDemand b es ≤ n →
    exprs functions (some n) (d + b) es = exprs functions none (d + b) es
  | [], _, _, _ => by rw [exprs, exprs]
  | e :: rest, d, b, h => by
    rw [argumentsDemand] at h
    have hrest := exprs_room rest (b := b + 1) (d := d) (by omega)
    rw [← Nat.add_assoc] at hrest
    rw [exprs, exprs, expr_room e (by omega), hrest]

end

theorem condition_room {e : Expr} {line : Nat} (h : e.demand ≤ n) :
    condition functions (some n) line e = condition functions none line e := by
  rw [condition, condition, expr_room e (by omega)]

mutual

theorem stmt_room : ∀ (isLast : Bool) (start : Nat) (s : Stmt),
    (∀ site ∈ s.sites isLast start, site.statement.demand ≤ n) →
      stmt functions (some n) passes s = stmt functions none passes s
  | isLast, start, .assign target value, h => by
    have hvalue : value.demand ≤ n := h _ (List.mem_singleton.mpr rfl)
    rw [stmt, stmt, expr_room value (by omega)]
  | isLast, start, .branch l e thenBody none, h => by
    have hcondition : e.demand ≤ n := h _ List.mem_cons_self
    rw [stmt, stmt, condition_room hcondition,
      block_room _ thenBody fun site hsite => h site (List.mem_cons_of_mem _ hsite)]
  | isLast, start, .branch l e thenBody (some elseBody), h => by
    have hcondition : e.demand ≤ n := h _ List.mem_cons_self
    rw [stmt, stmt, condition_room hcondition,
      block_room _ thenBody fun site hsite =>
        h site (List.mem_cons_of_mem _ (List.mem_append_left _ hsite)),
      block_room _ elseBody fun site hsite =>
        h site (List.mem_cons_of_mem _ (List.mem_append_right _ hsite))]
  | isLast, start, .loop l e body, h => by
    have hcondition : e.demand ≤ n := h _ List.mem_cons_self
    rw [stmt, stmt, condition_room hcondition,
      block_room _ body fun site hsite => h site (List.mem_cons_of_mem _ hsite)]
  | isLast, start, .expr e, h => by
    have he : e.demand ≤ n := h _ (List.mem_singleton.mpr rfl)
    rw [stmt, stmt, expr_room e (by omega)]
  | isLast, start, .setMember object name value, h => by
    have hboth : max 1 (argumentsDemand 0 [object, value]) ≤ n :=
      h _ (List.mem_singleton.mpr rfl)
    simp only [argumentsDemand] at hboth
    rw [stmt, stmt, expr_room object (by omega), expr_room value (by omega)]
  | isLast, start, .print l newline args, h => by
    have hargs : max 1 (argumentsDemand 0 args) ≤ n := h _ (List.mem_singleton.mpr rfl)
    rw [stmt, stmt, exprs_room args (b := 0) (d := 0) (by omega)]

theorem block_room : ∀ (start : Nat) (body : List Stmt),
    (∀ site ∈ blockSites start body, site.statement.demand ≤ n) →
      block functions (some n) passes body = block functions none passes body
  | _, [], _ => by rw [block, block]
  | start, s :: rest, h => by
    rw [block, block,
      stmt_room false start s fun site hsite => h site (List.mem_append_left _ hsite),
      block_room _ rest fun site hsite => h site (List.mem_append_right _ hsite)]

end

theorem statements_room (start : Nat) (body : List Stmt)
    (h : ∀ site ∈ scriptSites start body, site.statement.demand ≤ n) :
    statements functions (some n) passes body = statements functions none passes body := by
  induction body generalizing start with
  | nil => rfl
  | cons s rest ih =>
    have hs : stmt functions (some n) passes s = stmt functions none passes s :=
      stmt_room rest.isEmpty start s fun site hsite => h site (List.mem_append_left _ hsite)
    have hrest := ih _ fun site hsite => h site (List.mem_append_right _ hsite)
    cases rest with
    | nil => rw [statements, statements, hs]
    | cons t more =>
      show (stmt functions (some n) passes s >>= fun _ =>
        statements functions (some n) passes (t :: more)) = _
      rw [hs, hrest]
      rfl

end Direct

theorem Script.evaluate_room {s : Script} {functions : FunctionRegistry} {n : Nat}
    (h : ∀ site ∈ scriptSites 0 s.statements, site.statement.demand ≤ n) (passes : Nat)
    (w : World) : s.evaluate functions (some n) passes w = s.evaluate functions none passes w := by
  rw [evaluate, evaluate, Direct.statements_room 0 s.statements h]

end ScriptEngine
