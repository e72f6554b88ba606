/-
Statements run as they evaluate.

A statement begins and ends with an empty stack, except that the last one of a script
leaves its value there (`Leaves`).  A loop is simulated pass by pass: the induction is
on the passes that are left, and every pass takes at least the step that goes back, so
an evaluation that runs out of passes belongs to a run of at least as many steps.
-/
import ScriptEngine.Proofs.Direct.Expressions

namespace ScriptEngine

theorem Program.le_size {p : Program} {o : Nat} {out : Listing} (h : Throughout p.HasAt o out)
    (ho : o ≤ p.size) : o + out.length ≤ p.size := by
  cases hlen : out.length with
  | zero => exact ho
  | succ n =>
    have hlast := h n out[n] (List.getElem?_eq_getElem (by omega))
    exact (Array.getElem?_eq_some_iff.mp hlast.1).1

theorem Program.HasAt.lt_size {p : Program} {o : Nat} {entry : Instruction × Nat}
    (h : p.HasAt o entry) : o < p.size := (Array.getElem?_eq_some_iff.mp h.1).1

namespace Direct

open Constant (AllUnsigned)
open Translation (Expression Arguments Statement Block)

structure Leaves (p : Program) (isLast : Bool) (pc : Nat) (v : Value) (env : Environment)
    (m : Machine) : Prop where
  empty : isLast = false → Stands p m env [] pc
  value : isLast = true → ∃ items, Stands p m env items pc ∧ items.headD .unset = v

theorem Leaves.of_empty {p : Program} {isLast : Bool} {pc : Nat} {env : Environment} {m : Machine}
    (h : Stands p m env [] pc) : Leaves p isLast pc .unset env m :=
  ⟨fun _ => h, fun _ => ⟨[], h, rfl⟩⟩

variable {p : Program} {functions : FunctionRegistry} {least : Nat}

theorem condition_simulates {e : Expr} {test : Listing} {start target line : Nat} {m : Machine}
    {env : Environment} (hp : AllUnsigned p.constants.constants.toList)
    (he : Expression p functions e test) (hlit : AllUnsigned e.literals)
    (hc : Throughout p.HasAt start (test ++ [(.jumpIfFalse target, line)]))
    (ht : target ≤ p.size) (h : Stands p m env [] start) :
    Simulates p functions least m
      (fun b env m => Stands p m env [] (if b then start + test.length + 1 else target))
      (condition functions (some operandCapacity) line e env) := by
  unfold condition
  refine .bind (expression_simulates hp e he hlit hc.left h) fun v env m hm => ?_
  exact jumpIfFalse_simulates hm hc.right.head ht

/-- A loop is simulated if each of its parts is. -/
theorem repeatWhile_simulates {test : Evaluation Bool} {body : Evaluation Unit}
    {start inside back finish : Nat}
    (htest : ∀ env m, Stands p m env [] start → Simulates p functions least m
      (fun b env m => Stands p m env [] (if b then inside else finish)) (test env))
    (hbody : ∀ env m, Stands p m env [] inside →
      Simulates p functions least m (fun _ env m => Stands p m env [] back) (body env))
    (hback : ∀ env m, Stands p m env [] back →
      ∃ m', Machine.Reaches p functions 1 m m' ∧ Stands p m' env [] start)
    (passes : Nat) (hle : passes ≤ least) {env : Environment} {m : Machine}
    (h : Stands p m env [] start) :
    Simulates p functions passes m (fun _ env m => Stands p m env [] finish)
      (repeatWhile test body passes env) := by
  induction passes generalizing env m with
  | zero => exact ⟨0, m, Nat.le_refl 0, .refl⟩
  | succ passes ih =>
    rw [repeatWhile]
    refine .bind ((htest env m h).mono hle) fun b env m hm => ?_
    cases b with
    | false => exact .pure hm
    | true =>
      refine .bind ((hbody env m hm).mono hle) fun _ env m hm => ?_
      -- the step that goes back is the one that this pass adds to the rest of the run
      obtain ⟨m', hreach, hm'⟩ := hback env m hm
      exact (ih (by omega) hm').after hreach

theorem popUnless_simulates {isLast : Bool} {pc line : Nat} {v : Value} {m : Machine}
    {env : Environment} (h : Stands p m env [v] pc)
    (hc : Throughout p.HasAt pc (popUnless isLast line)) :
    Simulates p functions least m (Leaves p isLast (pc + (popUnless isLast line).length))
      (.ok v env) := by
  cases isLast with
  | true => exact .pure ⟨nofun, fun _ => ⟨[v], h, rfl⟩⟩
  | false => exact pop_simulates h hc.head fun m hm => ⟨fun _ => hm, nofun⟩

theorem length_append_cons (pc : Nat) (first second : Listing) (entry : Instruction × Nat) :
    pc + (first ++ entry :: second).length = pc + first.length + 1 + second.length := by
  rw [List.length_append, List.length_cons]
  omega

mutual

theorem statement_simulates (hp : AllUnsigned p.constants.constants.toList)
    (hnodup : p.slotNames.toList.Nodup) : ∀ (isLast : Bool) (s : Stmt) {start : Nat}
      {out : Listing} {m : Machine} {env : Environment},
      Statement p functions isLast start s out → AllUnsigned s.literals →
      Throughout p.HasAt start out → Stands p m env [] start →
        Simulates p functions least m (Leaves p isLast (start + out.length))
          (stmt functions (some operandCapacity) least s env)
  | isLast, .assign target value, _, _, _, _, .assign hv hs, hlit, hc, h => by
    rw [stmt, length_append]
    refine .bind (expression_simulates hp value hv hlit hc.left h) fun v env m hm => ?_
    exact store_simulates hm hc.right.head hs hnodup fun m hm => .of_empty hm
  | isLast, .branch l condition thenBody none, _, _, _, _, .branch hc hb, hlit, hcode, h => by
    rw [stmt, length_append_cons]
    have htest := hcode.left.append (.one hcode.right.head)
    have hend := p.le_size hcode.right.tail hcode.right.head.lt_size
    refine .bind (condition_simulates hp hc hlit.left htest hend h) fun b env m hm => ?_
    cases b with
    | false => exact .pure (.of_empty hm)
    | true =>
      refine .bind (block_simulates hp hnodup thenBody hb hlit.right hcode.right.tail hm)
        fun _ env m hm => ?_
      exact .pure (.of_empty hm)
  | isLast, .branch l condition thenBody (some elseBody), _, _, _, _, .alternative hc hb ho,
      hlit, hcode, h => by
    rw [stmt, length_append_cons, length_append_cons]
    have htest := hcode.left.append (.one hcode.right.head)
    have hbody := hcode.right.tail
    have helse := hbody.right.head.lt_size
    have hend := p.le_size hbody.right.tail helse
    refine .bind (condition_simulates hp hc hlit.left htest helse h) fun b env m hm => ?_
    cases b with
    | false =>
      refine .bind (block_simulates hp hnodup elseBody ho hlit.right.right hbody.right.tail hm)
        fun _ env m hm => ?_
      exact .pure (.of_empty hm)
    | true =>
      refine .bind (block_simulates hp hnodup thenBody hb hlit.right.left hbody.left hm)
        fun _ env m hm => ?_
      obtain ⟨m', hreach, hm'⟩ := jump_reaches hm hbody.right.head hend
      exact ⟨1, m', hreach, .of_empty hm'⟩
  | isLast, .loop l condition body, _, _, _, _, .loop hc hb, hlit, hcode, h => by
    rw [stmt, length_append_cons, length_append]
    have htest := hcode.left.append (.one hcode.right.head)
    have hbody := hcode.right.tail
    have hend := hbody.right.head.lt_size
    have hstart := Nat.le_of_add_right_le (Nat.le_of_lt hcode.right.head.lt_size)
    refine .bind (repeatWhile_simulates
      (fun env m hm => condition_simulates hp hc hlit.left htest hend hm)
      (fun env m hm => block_simulates hp hnodup body hb hlit.right hbody.left hm)
      (fun env m hm => jump_reaches hm hbody.right.head hstart) least (Nat.le_refl _) h)
      fun _ env m hm => .pure (.of_empty hm)
  | isLast, .expr e, _, _, _, _, .expr he, hlit, hcode, h => by
    rw [stmt, length_append]
    refine (expression_simulates hp e he hlit hcode.left h).andThen fun v env m hm => ?_
    exact popUnless_simulates hm hcode.right
  | isLast, .setMember object name value, _, _, _, _, .setMember ho hv ht, hlit, hcode, h => by
    rw [stmt, length_append, length_append_cons]
    have hrest := hcode.right
    refine .bind (expression_simulates hp object ho hlit.left hcode.left h)
      fun receiver env m hm => ?_
    refine .bind (expression_simulates hp value hv hlit.right hrest.left hm) fun v env m hm => ?_
    have hboth : Stands p m env ([v].reverse ++ [receiver]) _ := hm
    refine (callMethod_simulates hboth rfl hrest.right.head ht).andThen fun v env m hm => ?_
    exact popUnless_simulates hm hrest.right.tail
  | isLast, .print l newline args, _, _, _, _, .print ha hr, hlit, hcode, h => by
    rw [stmt, length_append_cons]
    refine .bind (function_simulates hr) ?_
    rintro _ _ _ ⟨rfl, rfl, rfl⟩
    refine .bind (arguments_simulates hp args ha hlit hcode.left h) fun vs env m ⟨hn, hm⟩ => ?_
    refine .bind (call_simulates_room hm hn hcode.right.head
      (FunctionRegistry.entry?_of_resolve hr) (by decide)) fun v env m hm => ?_
    exact pop_simulates hm hcode.right.tail.head fun m hm => .of_empty hm

theorem block_simulates (hp : AllUnsigned p.constants.constants.toList)
    (hnodup : p.slotNames.toList.Nodup) : ∀ (body : List Stmt) {start : Nat}
      {out : Listing} {m : Machine} {env : Environment},
      Block p functions start body out → AllUnsigned (blockLiterals body) →
      Throughout p.HasAt start out → Stands p m env [] start →
        Simulates p functions least m (fun _ env m => Stands p m env [] (start + out.length))
          (block functions (some operandCapacity) least body env)
  | [], _, _, _, _, .nil, _, _, h => .pure h
  | s :: rest, start, _, m, env, .cons hs hr, hlit, hcode, h => by
    rw [block, length_append]
    refine .bind (statement_simulates hp hnodup false s hs hlit.left hcode.left h)
      fun v env m hm => ?_
    exact block_simulates hp hnodup rest hr hlit.right hcode.right (hm.empty rfl)

end

end Direct
end ScriptEngine
