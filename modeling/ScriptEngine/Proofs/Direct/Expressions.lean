/-
Expressions run as they evaluate.

The translation of an expression leaves the value of the expression on top of the
operands that were there before, or fails as its evaluation does.  A constant of the
pool is the literal it was made from because neither has a minus sign: the pool takes
zero and its negative for one number, and a script has no literal for the latter.
-/
import ScriptEngine.Proofs.Decimal.Unsigned
import ScriptEngine.Proofs.Direct.Instructions

namespace ScriptEngine
namespace Direct

open Constant (AllUnsigned)
open Translation (Expression Arguments)

variable {p : Program} {functions : FunctionRegistry} {least : Nat}

theorem literal_simulates {literal k : Constant} {index line pc : Nat} {m : Machine}
    {env : Environment} {items : List Value} (hp : AllUnsigned p.constants.constants.toList)
    (hl : AllUnsigned [literal]) (hk : p.constants.get? index = some k)
    (hs : k.same literal = true) (hi : p.HasAt pc (.constant index, line))
    (h : Stands p m env items pc) :
    Simulates p functions least m (Pushed p items (pc + 1))
      (hold (some operandCapacity) items.length line literal.toValue env) := by
  have hmem : k ∈ p.constants.constants.toList := by
    rw [ConstantPool.get?, ← Array.getElem?_toList] at hk
    exact List.mem_of_getElem? hk
  -- the pool may have taken the constant from another place of the script
  rw [← Constant.eq_of_same (hp k hmem) (hl literal (List.mem_singleton.mpr rfl)) hs]
  exact constant_simulates h hi hk

theorem function_simulates {name : String} {argc handle : Nat} {m : Machine} {env : Environment}
    (h : functions.resolve name argc = .ok (some handle)) :
    Simulates p functions least m (fun a env' m' => a = handle ∧ env' = env ∧ m' = m)
      (function functions name argc env) := by
  rw [function, h]
  exact .pure ⟨rfl, rfl, rfl⟩

theorem length_append (pc : Nat) (first second : Listing) :
    pc + (first ++ second).length = pc + first.length + second.length := by
  rw [List.length_append, Nat.add_assoc]

/-- A call of a function or of a constructor, once its arguments are simulated. -/
theorem application_simulates {name : String} {args : List Expr} {out : Listing}
    {handle pc line : Nat} {m : Machine} {env : Environment} {items : List Value}
    (hr : functions.resolve name args.length = .ok (some handle))
    (hc : p.HasAt (pc + out.length) (.call handle args.length, line))
    (ha : Simulates p functions least m
      (fun vs env m => vs.length = args.length ∧
        Stands p m env (vs.reverse ++ items) (pc + out.length))
      (exprs functions (some operandCapacity) items.length args env)) :
    Simulates p functions least m (Pushed p items (pc + out.length + 1))
      ((do
        let handle ← function functions name args.length
        let vs ← exprs functions (some operandCapacity) items.length args
        let v ← invoke functions handle line vs
        hold (some operandCapacity) items.length line v : Evaluation Value) env) := by
  refine .bind (function_simulates hr) ?_
  rintro _ _ _ ⟨rfl, rfl, rfl⟩
  refine .bind ha fun vs env m ⟨hn, hm⟩ => ?_
  exact call_simulates hm hn hc (FunctionRegistry.entry?_of_resolve hr)

mutual

theorem expression_simulates (hp : AllUnsigned p.constants.constants.toList) :
    ∀ (e : Expr) {out : Listing} {pc : Nat} {m : Machine} {env : Environment}
      {items : List Value}, Expression p functions e out → AllUnsigned e.literals →
      Throughout p.HasAt pc out → Stands p m env items pc →
        Simulates p functions least m (Pushed p items (pc + out.length))
          (expr functions (some operandCapacity) items.length e env)
  | .number .., _, _, _, _, _, .number hk hs, hl, hc, h => literal_simulates hp hl hk hs hc.head h
  | .bool .., _, _, _, _, _, .bool hk hs, hl, hc, h => literal_simulates hp hl hk hs hc.head h
  | .string .., _, _, _, _, _, .string hk hs, hl, hc, h => literal_simulates hp hl hk hs hc.head h
  | .variable name, _, _, _, _, _, .variable hs, _, hc, h => by
    rw [expr]
    exact load_simulates h hc.head hs
  | .binary op left right, _, _, _, _, _, .binary hl hr, hlit, hc, h => by
    rw [expr, length_append, length_append]
    refine .bind (expression_simulates hp left hl hlit.left hc.left h) fun a env m hm => ?_
    refine .bind (expression_simulates hp right hr hlit.right hc.right.left hm) fun b env m hm => ?_
    exact binary_simulates hm hc.right.right.head
  | .unary l op e, _, _, _, _, _, .unary he, hlit, hc, h => by
    rw [expr, length_append]
    refine .bind (expression_simulates hp e he hlit hc.left h) fun v env m hm => ?_
    exact unary_simulates hm hc.right.head
  | .member object name, _, _, _, _, _, .member ho ht, hlit, hc, h => by
    rw [expr, length_append]
    refine .bind (expression_simulates hp object ho hlit hc.left h) fun receiver env m hm => ?_
    have hnone : Stands p m env (([] : List Value).reverse ++ receiver :: _) _ := hm
    exact callMethod_simulates hnone rfl hc.right.head ht
  | .method object name args, _, _, _, _, _, .method ho ha ht, hlit, hc, h => by
    rw [expr, length_append, length_append]
    refine .bind (expression_simulates hp object ho hlit.left hc.left h)
      fun receiver env m hm => ?_
    refine .bind (arguments_simulates hp args ha hlit.right hc.right.left hm)
      fun vs env m ⟨hn, hm⟩ => ?_
    exact callMethod_simulates hm hn hc.right.right.head ht
  | .call callee args, _, _, _, _, _, .call ha hr, hlit, hc, h => by
    rw [expr, length_append]
    exact application_simulates hr hc.right.head (arguments_simulates hp args ha hlit hc.left h)
  | .construct callee args, _, _, _, _, _, .construct ha hr, hlit, hc, h => by
    rw [expr, length_append]
    exact application_simulates hr hc.right.head (arguments_simulates hp args ha hlit hc.left h)

theorem arguments_simulates (hp : AllUnsigned p.constants.constants.toList) :
    ∀ (es : List Expr) {out : Listing} {pc : Nat} {m : Machine} {env : Environment}
      {items : List Value}, Arguments p functions es out → AllUnsigned (argumentLiterals es) →
      Throughout p.HasAt pc out → Stands p m env items pc →
        Simulates p functions least m
          (fun vs env m => vs.length = es.length ∧
            Stands p m env (vs.reverse ++ items) (pc + out.length))
          (exprs functions (some operandCapacity) items.length es env)
  | [], _, _, _, _, _, .nil, _, _, h => .pure ⟨rfl, h⟩
  | e :: rest, _, _, _, _, _, .cons he hr, hlit, hc, h => by
    rw [exprs, length_append]
    refine .bind (expression_simulates hp e he hlit.left hc.left h) fun v env m hm => ?_
    refine .bind (arguments_simulates hp rest hr hlit.right hc.right hm)
      fun vs env m ⟨hn, hm⟩ => .pure ⟨congrArg (· + 1) hn, ?_⟩
    rw [List.reverse_cons, List.append_assoc]
    exact hm

end

end Direct
end ScriptEngine
