/-
What a chain of operators does, independently of the power it starts at.

At any token a chain does one of two things: it stops with the expression it has,
or it extends that expression once and goes on.  The extension (`extend`) does
not depend on the power the caller asks for; the power only decides whether there
is one, by comparison with how tightly the next token holds (`holds?`).

From this follow the three facts that relate binding powers to levels.  Powers
that compare alike with every operator give one parser (`chain_congr`); a loose
chain is a tight chain followed by a loose one (`chain_split`); and behind a chain
stands no token that it would have taken (`chain_halts`).
-/
import ScriptEngine.Proofs.Parser.Layered
import ScriptEngine.Proofs.Parser.Steps

namespace ScriptEngine
namespace Parser

theorem bind_congr {α β : Type} {x y : Parse α} {f g : α → Parse β} {p : Parser}
    (h : x p = y p) (hf : ∀ a q, y p = .ok a q → f a q = g a q) :
    (x >>= f) p = (y >>= g) p := by
  rw [bind_apply, bind_apply, h]
  cases hy : y p with
  | ok a q => exact hf a q hy
  | error e q => rfl

theorem bind_assoc_apply {α β γ : Type} (x : Parse α) (f : α → Parse β) (g : β → Parse γ)
    (p : Parser) : ((x >>= f) >>= g) p = (x >>= fun a => f a >>= g) p := by
  simp only [bind_apply]
  cases x p <;> rfl

theorem get_bind_apply {α : Type} (f : Parser → Parse α) (p : Parser) :
    (get >>= f) p = f p p := rfl

theorem take_bind_apply {α : Type} (f : Token → Parse α) (p : Parser) :
    (take >>= f) p = f p.current p.advance := rfl

open Layered (operator?)

/-- How tightly the next token holds the expression before it, if it goes on with it. -/
def holds? (p : Parser) : Option Nat :=
  if p.check .dot then some memberPower else (operator? p).map BinaryOp.leftPower

/-- No token that a chain of the power would take is next. -/
def Halts (power : Nat) (p : Parser) : Prop := ∀ s, holds? p = some s → s < power

theorem Halts.mono {k m : Nat} {p : Parser} (h : Halts k p) (hkm : k ≤ m) : Halts m p :=
  fun s hs => Nat.lt_of_lt_of_le (h s hs) hkm

/-- Extends an expression by the member access or by the operator that is next. -/
def extend (left : Expr) : Parse Expr := do
  let p ← get
  if p.check .dot then
    let _ ← take
    let name ← memberName
    if (← get).check .leftParen then
      let args ← arguments
      pure (.method left name args)
    else pure (.member left name)
  else
    match operator? p with
    | none => pure left
    | some op =>
      let _ ← take
      let right ← expr op.rightPower
      pure (.binary op left right)

theorem operator?_eq_some {p : Parser} {op : BinaryOp} (h : operator? p = some op) :
    BinaryOp.ofToken? p.current.kind = some op ∧ ¬ (op = .sub ∧ p.atLineStart) := by
  unfold operator? at h
  split at h
  · next o ho =>
    split at h
    · cases h
    · next hm =>
      cases h
      exact ⟨ho, hm⟩
  · cases h

theorem kind_of_holds? {p : Parser} {s : Nat} (h : holds? p = some s) :
    p.current.kind ≠ .eof := by
  intro hk
  unfold holds? at h
  split at h
  · next hdot => rw [current_of_check hdot] at hk; cases hk
  · obtain ⟨op, hop, -⟩ := Option.map_eq_some_iff.mp h
    have hof := (operator?_eq_some hop).1
    rw [hk] at hof
    cases hof

theorem extend_orderly {p : Parser} {s : Nat} (h : holds? p = some s) (left : Expr) :
    Orderly p 1 (extend left) := by
  have hk := kind_of_holds? h
  refine .get_bind (.ite (fun _ => ?_) fun hdot => ?_)
  · refine (Orderly.take_kind hk).seq fun _ q _ => ?_
    refine ((memberName_orderly q).mono (Nat.zero_le 1)).seq fun name r _ => ?_
    refine .get_bind (.ite (fun _ => ?_) fun _ => .pure _)
    exact ((settled_tidy.arguments r).mono (Nat.zero_le 1)).seq fun _ _ _ => .pure _
  · split
    · next hop => simp [holds?, hdot, hop] at h
    · refine (Orderly.take_kind hk).seq fun _ q _ => ?_
      exact ((settled_tidy.expr q _).mono (Nat.zero_le 1)).seq fun _ _ _ => .pure _

/-! ## One step of a chain -/

variable {k m : Nat} {p q : Parser} {e left : Expr}

theorem chain_halt (h : Halts k p) (left : Expr) : chain k left p = .ok left p := by
  rw [chain_eq]
  show (if p.check .dot then _ else _ : Parse Expr) p = _
  by_cases hdot : p.check .dot = true
  · have hlt : memberPower < k := h _ (by simp [holds?, hdot])
    rw [if_pos hdot, if_pos hlt]
    rfl
  · rw [if_neg hdot]
    cases hop : BinaryOp.ofToken? p.current.kind with
    | none => rfl
    | some op =>
      dsimp only
      by_cases hm : op = .sub ∧ p.atLineStart
      · rw [if_pos hm]
        rfl
      · have hlt : op.leftPower < k := by
          refine h _ ?_
          simp only [holds?, if_neg hdot, operator?, hop, if_neg hm, Option.map_some]
        rw [if_neg hm, if_pos hlt]
        rfl

theorem chain_extend {s : Nat} (h : holds? p = some s) (hk : k ≤ s) (left : Expr) :
    chain k left p = (extend left >>= chain k) p := by
  rw [chain_eq]
  show (if p.check .dot then _ else _ : Parse Expr) p =
    ((if p.check .dot then _ else _ : Parse Expr) >>= chain k) p
  by_cases hdot : p.check .dot = true
  · have hs : s = memberPower := by simpa [holds?, hdot] using h.symm
    rw [if_pos hdot, if_pos hdot, if_neg (by omega), bind_assoc_apply]
    refine bind_congr rfl fun _ q _ => ?_
    rw [bind_assoc_apply]
    refine bind_congr rfl fun name r _ => ?_
    rw [get_bind_apply, bind_assoc_apply, get_bind_apply]
    by_cases hp : r.check .leftParen = true
    · rw [if_pos hp, if_pos hp, bind_assoc_apply]
      rfl
    · rw [if_neg hp, if_neg hp]
      rfl
  · rw [if_neg hdot, if_neg hdot]
    simp only [holds?, if_neg hdot] at h
    obtain ⟨op, hop, rfl⟩ := Option.map_eq_some_iff.mp h
    obtain ⟨hof, hm⟩ := operator?_eq_some hop
    simp only [hof, hop, if_neg hm, if_neg (Nat.not_lt.mpr hk)]
    rw [bind_assoc_apply]
    refine bind_congr rfl fun _ q _ => ?_
    rw [bind_assoc_apply]
    rfl

/-- Induction over the steps of a chain: each extension consumes a token. -/
theorem chain_induct {motive : Parser → Expr → Prop} (k : Nat)
    (halt : ∀ p left, Halts k p → motive p left)
    (step : ∀ p left s, holds? p = some s → k ≤ s →
      (∀ e q, extend left p = .ok e q → motive q e) → motive p left) :
    ∀ p left, motive p left := by
  intro p
  generalize hn : p.ahead.length = n
  induction n using Nat.strongRecOn generalizing p with
  | _ n ih =>
    intro left
    by_cases hh : Halts k p
    · exact halt p left hh
    · simp only [Halts, Classical.not_forall, Nat.not_lt] at hh
      obtain ⟨s, hs, hk⟩ := hh
      refine step p left s hs hk fun e q hq => ?_
      have hlen := ((extend_orderly hs left).ok hq).2
      exact ih q.ahead.length (by omega) q rfl e

/-! ## Powers and chains -/

/-- Powers that compare alike with every operator give one chain. -/
theorem chain_congr (h : ∀ p s, holds? p = some s → (k ≤ s ↔ m ≤ s)) (left : Expr) :
    chain k left p = chain m left p := by
  induction p, left using chain_induct k with
  | halt p left hh =>
    have hm : Halts m p := by
      intro s hs
      have := (h p s hs).mpr
      have := hh s hs
      omega
    rw [chain_halt hh, chain_halt hm]
  | step p left s hs hk ih =>
    rw [chain_extend hs hk, chain_extend hs ((h p s hs).mp hk)]
    exact bind_congr rfl fun e q hq => ih e q hq

/-- A loose chain takes what a tight one takes, and goes on. -/
theorem chain_split (h : k ≤ m) (left : Expr) :
    chain k left p = (chain m left >>= chain k) p := by
  induction p, left using chain_induct m with
  | halt p left hh =>
    rw [bind_apply, chain_halt hh]
  | step p left s hs hm ih =>
    rw [bind_apply, chain_extend hs hm, ← bind_apply, bind_assoc_apply,
      chain_extend hs (Nat.le_trans h hm)]
    exact bind_congr rfl fun e q hq => ih e q hq

/-- Behind a chain stands no token that it would have taken. -/
theorem chain_halts (h : chain k left p = .ok e q) : Halts k q := by
  induction p, left using chain_induct k with
  | halt p left hh =>
    rw [chain_halt hh] at h
    cases h
    exact hh
  | step p left s hs hk ih =>
    rw [chain_extend hs hk, bind_apply] at h
    split at h
    · next f r hr => exact ih f r hr h
    · cases h

theorem expr_apply (k : Nat) (p : Parser) : expr k p = (operand >>= chain k) p := by
  rw [expr_eq]
  rfl

theorem expr_halts (h : expr k p = .ok e q) : Halts k q := by
  rw [expr_apply, bind_apply] at h
  split at h
  · exact chain_halts h
  · cases h

theorem expr_congr (h : ∀ p s, holds? p = some s → (k ≤ s ↔ m ≤ s)) : expr k p = expr m p := by
  rw [expr_apply, expr_apply]
  exact bind_congr rfl fun e q _ => chain_congr h e

theorem expr_split (h : k ≤ m) : expr k p = (expr m >>= chain k) p := by
  have hm : expr m = operand >>= chain m := funext fun p => expr_apply m p
  rw [hm, bind_assoc_apply, expr_apply]
  exact bind_congr rfl fun e q _ => chain_split h e

end Parser
end ScriptEngine
