/-
Compiled scripts run as they evaluate.

A run of a compiled script ends as its direct evaluation does, with the same value or
the same error at the same line, and in the same world; and it ends if and only if the
evaluation does (`Script.compile_correct`).  The evaluation is the one that holds as
many operands as the stack does.  Where no expression demands more than that, it is the
evaluation without a limit; where one does, the two can differ, and the run fails
(`Script.compile_overflows`).
-/
import ScriptEngine.Proofs.Code.Compiled
import ScriptEngine.Proofs.Direct.Room
import ScriptEngine.Proofs.Direct.Statements
import ScriptEngine.Proofs.Parser.Literals

namespace ScriptEngine
namespace Direct

open Constant (AllUnsigned)

variable {p : Program} {functions : FunctionRegistry}

theorem statements_simulates {passes : Nat} (hp : AllUnsigned p.constants.constants.toList)
    (hnodup : p.slotNames.toList.Nodup) {body : List Stmt} {start : Nat} {out : Listing}
    {m : Machine} {env : Environment} (hs : Translation.Statements p functions start body out)
    (hlit : AllUnsigned (blockLiterals body)) (hc : Throughout p.HasAt start out)
    (h : Stands p m env [] start) :
    Simulates p functions passes m (Leaves p true (start + out.length))
      (statements functions (some operandCapacity) passes body env) := by
  induction hs generalizing m env with
  | nil => exact .pure (.of_empty h)
  | @cons start s rest first second hs hr ih =>
    have hfirst : Simulates p functions passes m (Leaves p rest.isEmpty (start + first.length))
        (stmt functions (some operandCapacity) passes s env) :=
      statement_simulates hp hnodup _ s hs hlit.left hc.left h
    cases rest with
    | nil =>
      cases hr
      rw [List.append_nil]
      exact hfirst
    | cons t more =>
      rw [length_append]
      exact .bind hfirst fun v env m hm => ih hlit.right hc.right (hm.empty rfl)

theorem stands_start (p : Program) (w : World) :
    Stands p (.start p w) ⟨fun _ => .unset, w⟩ [] 0 where
  stack := rfl
  place := rfl
  world := rfl
  size := Array.size_replicate
  slots slot name h := by
    have hlt : slot < p.slotNames.size := (Array.getElem?_eq_some_iff.mp h).1
    simp [Machine.start, hlt]

/-- The run is over, and its result and its world are those of an evaluation. -/
def Ended (p : Program) (v : Value) (env : Environment) (m : Machine) : Prop :=
  Machine.Halts p m ∧ m.result = v ∧ m.world = env.world

theorem Leaves.ended {pc : Nat} {v : Value} {env : Environment} {m : Machine}
    (h : Leaves p true pc v env m) (hpc : p.size ≤ pc) : Ended p v env m := by
  obtain ⟨items, hm, rfl⟩ := h.value rfl
  refine ⟨?_, ?_, hm.world⟩
  · rw [Machine.Halts, hm.place]
    exact Array.getElem?_eq_none hpc
  · rw [Machine.result, Stack.top, hm.stack]
    cases items <;> rfl

/-! ## Ends of runs -/

section
variable {m : Machine} {v : Value} {e : RuntimeError} {w : World}
  {evaluate : Nat → EStateM.Result Stop Environment Value}

theorem run_of_ended {least : Nat} {env : Environment}
    (h : Simulates p functions least m (Ended p) (.ok v env)) :
    ∃ n, Machine.run p functions n m = .finished v env.world := by
  obtain ⟨n, m', hreach, hhalts, rfl, hw⟩ := h
  refine ⟨n + 0, ?_⟩
  rw [Machine.run_reaches hreach, Machine.run_halts hhalts, hw]

theorem run_of_failed {α : Type} {least : Nat} {env : Environment}
    {Q : α → Environment → Machine → Prop}
    (h : Simulates p functions least m Q (.error (.fault e) env)) :
    ∃ n, Machine.run p functions n m = .failed e env.world := by
  obtain ⟨n, m', hreach, hfails⟩ := h
  refine ⟨n + (0 + 1), ?_⟩
  rw [Machine.run_reaches hreach, Machine.run_fails hfails]

/-- A run that ends decides how the evaluation ends that is given one more pass than the run took
steps. -/
theorem ends_of_run {n : Nat} (h : Simulates p functions (n + 1) m (Ended p) (evaluate (n + 1)))
    (hend : ∀ m', Machine.run p functions n m ≠ .running m') :
    (∃ v env, evaluate (n + 1) = .ok v env ∧
      Machine.run p functions n m = .finished v env.world) ∨
    ∃ e env, evaluate (n + 1) = .error (.fault e) env ∧
      Machine.run p functions n m = .failed e env.world := by
  cases hr : evaluate (n + 1) with
  | ok v env =>
    rw [hr] at h
    obtain ⟨k, hk⟩ := run_of_ended h
    refine .inl ⟨v, env, rfl, ?_⟩
    rw [Machine.run_unique hend (k := k) (by rw [hk]; simp), hk]
  | error stop env =>
    rw [hr] at h
    cases stop with
    | fault e =>
      obtain ⟨k, hk⟩ := run_of_failed h
      refine .inr ⟨e, env, rfl, ?_⟩
      rw [Machine.run_unique hend (k := k) (by rw [hk]; simp), hk]
    | unresolved => exact h.elim
    | unfinished =>
      -- the run would be going on after more steps than those in which it ended
      obtain ⟨k, m', hle, hreach⟩ := h
      obtain ⟨m'', hrun⟩ := Machine.run_running hreach hle
      exact absurd hrun (hend m'')

theorem finished_iff (h : ∀ passes, Simulates p functions passes m (Ended p) (evaluate passes)) :
    (∃ n, Machine.run p functions n m = .finished v w) ↔
      ∃ passes env, evaluate passes = .ok v env ∧ env.world = w := by
  constructor
  · rintro ⟨n, hn⟩
    obtain ⟨v', env, hr, hrun⟩ | ⟨e, env, -, hrun⟩ := ends_of_run (h (n + 1)) (by rw [hn]; simp)
    · rw [hn] at hrun
      cases hrun
      exact ⟨n + 1, env, hr, rfl⟩
    · rw [hn] at hrun
      cases hrun
  · rintro ⟨passes, env, hr, rfl⟩
    have := h passes
    rw [hr] at this
    exact run_of_ended this

theorem failed_iff (h : ∀ passes, Simulates p functions passes m (Ended p) (evaluate passes)) :
    (∃ n, Machine.run p functions n m = .failed e w) ↔
      ∃ passes env, evaluate passes = .error (.fault e) env ∧ env.world = w := by
  constructor
  · rintro ⟨n, hn⟩
    obtain ⟨v, env, -, hrun⟩ | ⟨e', env, hr, hrun⟩ := ends_of_run (h (n + 1)) (by rw [hn]; simp)
    · rw [hn] at hrun
      cases hrun
    · rw [hn] at hrun
      cases hrun
      exact ⟨n + 1, env, hr, rfl⟩
  · rintro ⟨passes, env, hr, rfl⟩
    have := h passes
    rw [hr] at this
    exact run_of_failed this

end
end Direct

/-! ## Scripts -/

open Direct (Simulates Ended)

theorem Script.compile_simulates {s : Script} {input : CompilerInput} {p : Program}
    (h : s.compile input = .ok p) (hlit : Constant.AllUnsigned (blockLiterals s.statements))
    (w : World) (passes : Nat) :
    Simulates p input.functions passes (.start p w) (Ended p)
      (s.evaluate input.functions (some operandCapacity) passes w) := by
  obtain ⟨out, hout⟩ := compile_translates h
  have hp : Constant.AllUnsigned p.constants.constants.toList :=
    fun k hk => hlit k (hout.pool k hk)
  refine (Direct.statements_simulates hp hout.names hout.translation hlit hout.hasAt
    (Direct.stands_start p w)).imp fun v env m hm => hm.ended (Nat.le_of_eq ?_)
  rw [hout.size, Nat.zero_add]

section
variable {s : Script} {input : CompilerInput} {p : Program} {w w' : World}

theorem Script.run_finished_iff (h : s.compile input = .ok p)
    (hlit : Constant.AllUnsigned (blockLiterals s.statements)) {v : Value} :
    (∃ n, Machine.run p input.functions n (.start p w) = .finished v w') ↔
      s.Evaluates input.functions (some operandCapacity) w v w' :=
  Direct.finished_iff (compile_simulates h hlit w)

theorem Script.run_failed_iff (h : s.compile input = .ok p)
    (hlit : Constant.AllUnsigned (blockLiterals s.statements)) {e : RuntimeError} :
    (∃ n, Machine.run p input.functions n (.start p w) = .failed e w') ↔
      s.FailsWith input.functions (some operandCapacity) w e w' :=
  Direct.failed_iff (compile_simulates h hlit w)

theorem Script.evaluate_resolved (h : s.compile input = .ok p)
    (hlit : Constant.AllUnsigned (blockLiterals s.statements)) (passes : Nat)
    (env : Direct.Environment) :
    s.evaluate input.functions (some operandCapacity) passes w ≠ .error .unresolved env := by
  intro hr
  have hsimulates := compile_simulates h hlit w passes
  rw [hr] at hsimulates
  exact hsimulates

end

/-- A run of a compiled text ends as the evaluation ends that holds at most as many operands as
the stack, and an evaluation without a limit ends alike if no expression demands more. -/
theorem Script.compile_correct (text : String) {input : CompilerInput} {p : Program}
    (h : (Script.parse text).1.compile input = .ok p) (w : World) :
    (∀ v w', (∃ n, Machine.run p input.functions n (.start p w) = .finished v w') ↔
      (Script.parse text).1.Evaluates input.functions (some operandCapacity) w v w') ∧
    (∀ e w', (∃ n, Machine.run p input.functions n (.start p w) = .failed e w') ↔
      (Script.parse text).1.FailsWith input.functions (some operandCapacity) w e w') ∧
    (∀ passes env, (Script.parse text).1.evaluate input.functions (some operandCapacity) passes w ≠
      .error .unresolved env) ∧
    ((∀ site ∈ scriptSites 0 (Script.parse text).1.statements,
        site.statement.demand ≤ operandCapacity) →
      ∀ passes, (Script.parse text).1.evaluate input.functions none passes w =
        (Script.parse text).1.evaluate input.functions (some operandCapacity) passes w) := by
  have hlit := parse_literals text
  refine ⟨fun v w' => run_finished_iff h hlit, fun e w' => run_failed_iff h hlit,
    evaluate_resolved h hlit, ?_⟩
  intro hdemand passes
  exact (evaluate_room hdemand passes w).symm

namespace Direct

/-- The truth value that an evaluation ends with. -/
def bool? : EStateM.Result Stop Environment Value → Option Bool
  | .ok (.bool b) _ => some b
  | _ => none

theorem ok_of_bool? {r : EStateM.Result Stop Environment Value} {b : Bool}
    (h : bool? r = some b) : ∃ env, r = .ok (.bool b) env := by
  unfold bool? at h
  split at h
  · cases h
    exact ⟨_, rfl⟩
  · cases h

/-- The capacity of the stack that an evaluation exceeds, and the line where it does. -/
def overflow? : EStateM.Result Stop Environment Value → Option (Nat × Nat)
  | .error (.fault ⟨.stackOverflow capacity, line⟩) _ => some (capacity, line)
  | _ => none

theorem fault_of_overflow? {r : EStateM.Result Stop Environment Value} {capacity line : Nat}
    (h : overflow? r = some (capacity, line)) :
    ∃ env, r = .error (.fault ⟨.stackOverflow capacity, line⟩) env := by
  unfold overflow? at h
  split at h
  · cases h
    exact ⟨_, rfl⟩
  · cases h

end Direct

theorem Script.compile_correct_loop :
    ∃ p, (Script.parse "done = false while (not done) done = true end done").1.compile
        ⟨.empty, true⟩ = .ok p ∧
      ∃ n w', Machine.run p .empty n (.start p default) = .finished (.bool true) w' := by
  have hvalue : Direct.bool? ((Script.parse
      "done = false while (not done) done = true end done").1.evaluate .empty
        (some operandCapacity) 2 default) = some true := by decide +kernel
  obtain ⟨env, hr⟩ := Direct.ok_of_bool? hvalue
  cases h : (Script.parse "done = false while (not done) done = true end done").1.compile
      ⟨.empty, true⟩ with
  | ok p =>
    have hfinished := (compile_correct _ h default).1 (.bool true) env.world
    obtain ⟨n, hn⟩ := hfinished.mpr ⟨2, env, hr, rfl⟩
    exact ⟨p, rfl, n, env.world, hn⟩
  | error e =>
    have hok : ((Script.parse "done = false while (not done) done = true end done").1.compile
        ⟨.empty, true⟩).isOk = true := by decide +kernel
    rw [h] at hok
    cases hok

/-! ## More operands than the stack holds -/

theorem Script.parse_ofList {cs : List Char} (h : cs.head? ≠ some '\uFEFF') :
    (Script.parse (String.ofList cs)).1 = (Parser.ofTokens (.ofCursor ⟨.start, cs⟩)).script.1 := by
  have hbody : Cursor.body (String.ofList cs) = cs := by
    unfold Cursor.body
    rw [String.toList_ofList]
    split
    · exact absurd rfl h
    · rfl
  rw [Script.parse, TokenStream.ofString, Cursor.ofString, hbody]

/-- The text `true==(true==( … true))`.  Each `true` waits for the value of what is in the
parentheses after it. -/
def nestedEquals (depth : Nat) : List Char :=
  (List.replicate depth "true==(".toList).flatten ++ "true".toList ++ List.replicate depth ')'

/-- A script that needs one operand more than the stack holds. -/
def crowded : Script :=
  (Parser.ofTokens (.ofCursor ⟨.start, nestedEquals operandCapacity⟩)).script.1

theorem parse_crowded :
    (Script.parse (String.ofList (nestedEquals operandCapacity))).1 = crowded :=
  Script.parse_ofList (by decide +kernel)

theorem crowded_compiles : ∃ p, crowded.compile ⟨.empty, false⟩ = .ok p := by
  have hok : (crowded.compile ⟨.empty, false⟩).isOk = true := by decide +kernel
  cases h : crowded.compile ⟨.empty, false⟩ with
  | ok p => exact ⟨p, rfl⟩
  | error e =>
    rw [h] at hok
    cases hok

theorem crowded_evaluates : ∃ w', crowded.Evaluates .empty none default (.bool true) w' := by
  have hvalue : Direct.bool? (crowded.evaluate .empty none 0 default) = some true := by decide +kernel
  obtain ⟨env, hr⟩ := Direct.ok_of_bool? hvalue
  exact ⟨env.world, 0, env, hr, rfl⟩

theorem crowded_fails : ∃ w', crowded.FailsWith .empty (some operandCapacity) default
    ⟨.stackOverflow operandCapacity, 1⟩ w' := by
  have hfault : Direct.overflow? (crowded.evaluate .empty (some operandCapacity) 0 default) =
      some (operandCapacity, 1) := by decide +kernel
  obtain ⟨env, hr⟩ := Direct.fault_of_overflow? hfault
  exact ⟨env.world, 0, env, hr, rfl⟩

/-- The script has a value without a limit, and its run ends in a fault and not with a value. -/
theorem Script.compile_overflows :
    ∃ p, (Script.parse (String.ofList (nestedEquals operandCapacity))).1.compile
        ⟨.empty, false⟩ = .ok p ∧
      (∃ w', (Script.parse (String.ofList (nestedEquals operandCapacity))).1.Evaluates .empty none
        default (.bool true) w') ∧
      (∃ n w', Machine.run p .empty n (.start p default) =
        .failed ⟨.stackOverflow operandCapacity, 1⟩ w') ∧
      ∀ n v w', Machine.run p .empty n (.start p default) ≠ .finished v w' := by
  have hlit := parse_literals (String.ofList (nestedEquals operandCapacity))
  rw [parse_crowded] at hlit ⊢
  obtain ⟨p, hp⟩ := crowded_compiles
  obtain ⟨w', hw'⟩ := crowded_fails
  obtain ⟨n, hn⟩ : ∃ n, Machine.run p .empty n (.start p default) =
    .failed ⟨.stackOverflow operandCapacity, 1⟩ w' := (run_failed_iff hp hlit).mpr hw'
  refine ⟨p, hp, crowded_evaluates, ⟨n, w', hn⟩, ?_⟩
  intro k v w'' hk
  have hsame := Machine.run_unique (p := p) (n := n) (k := k) (by rw [hn]; simp) (by rw [hk]; simp)
  rw [hn, hk] at hsame
  cases hsame

end ScriptEngine
