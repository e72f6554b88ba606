/-
Machines that do what an evaluation does.

`Stands p m env items pc` says that the machine `m` is at an offset with the given
operands, and that its slots hold the variables and its world is that of an environment.

`Matches` compares a single operation of the machine with an evaluation: both go on, or
both fail with the same fault in the same world.  `Simulates` compares a run with an
evaluation: the run reaches a machine for the value, or one that fails as the evaluation
does; and where the evaluation needs more passes, the run has not ended after a number
of steps.  Both are closed under sequence, so an evaluation that is written as a
sequence is simulated part by part.
-/
import ScriptEngine.Proofs.Code.Sites
import ScriptEngine.Proofs.Direct.Evaluation
import ScriptEngine.Proofs.Run.Steps
import ScriptEngine.Proofs.Sequence

namespace ScriptEngine
namespace Direct

open Machine (Reaches Fails)

structure Stands (p : Program) (m : Machine) (env : Environment) (items : List Value) (pc : Nat) :
    Prop where
  stack : m.stack.items = items
  place : m.pc = pc
  world : m.world = env.world
  size : m.slots.size = p.slotNames.size
  slots : ∀ (slot : Nat) (name : String), p.slotNames[slot]? = some name →
    m.slots[slot]? = some (env.values name)

/-! ## Operations -/

def Matches {α β : Type} (line : Nat) (Q : α → β → Environment → Machine → Prop) :
    EStateM.Result Stop Environment α → EStateM.Result RuntimeFault Machine β → Prop
  | .ok a env, .ok b m => Q a b env m
  | .error (.fault e) env, .error fault m => e = ⟨fault, line⟩ ∧ m.world = env.world
  | _, _ => False

namespace Matches

variable {α α' β β' : Type} {line : Nat} {env : Environment} {m m' : Machine}

theorem bind {x : Evaluation α} {f : α → Evaluation α'} {y : Operation β}
    {g : β → Operation β'} {Q : α → β → Environment → Machine → Prop}
    {R : α' → β' → Environment → Machine → Prop} (h : Matches line Q (x env) (y m))
    (hf : ∀ a b env m, Q a b env m → Matches line R (f a env) (g b m)) :
    Matches line R ((x >>= f) env) ((y >>= g) m) := by
  rw [bind_apply, bind_apply]
  cases hx : x env with
  | ok a env' =>
    cases hy : y m with
    | ok b m' =>
      rw [hx, hy] at h
      exact hf a b env' m' h
    | error fault m' =>
      rw [hx, hy] at h
      exact h.elim
  | error stop env' =>
    cases hy : y m with
    | ok b m' =>
      rw [hx, hy] at h
      cases stop <;> exact h.elim
    | error fault m' =>
      rw [hx, hy] at h
      cases stop with
      | fault e => exact h
      | _ => exact h.elim

/-- The machine does something for itself first. -/
theorem skip {r : EStateM.Result Stop Environment α} {y : Operation β} {g : β → Operation β'}
    {b : β} {R : α → β' → Environment → Machine → Prop} (hy : y m = .ok b m')
    (h : Matches line R r (g b m')) : Matches line R r ((y >>= g) m) := by
  rw [bind_apply, hy]
  exact h

/-- A value that both compute alike. -/
theorem check {x : Except RuntimeFault α} (hw : m.world = env.world) :
    Matches line (fun a b env' m' => x = .ok a ∧ a = b ∧ env' = env ∧ m' = m)
      (Direct.check line x env) (Machine.lift x m) := by
  cases x with
  | ok a => exact ⟨rfl, rfl, rfl, rfl⟩
  | error fault => exact ⟨rfl, hw⟩

end Matches

namespace Stands

variable {p : Program} {m : Machine} {env : Environment} {items vs : List Value} {v : Value}
  {pc line : Nat}

theorem room (h : Stands p m env (v :: items) pc) : items.length < operandCapacity := by
  have := m.stack.size_le
  rw [h.stack, List.length_cons] at this
  omega

theorem pop (h : Stands p m env (v :: items) pc) :
    ∃ m', Machine.pop m = .ok v m' ∧ Stands p m' env items pc := by
  obtain ⟨⟨rest, hsize⟩, slots, place, world⟩ := m
  cases h.stack
  exact ⟨_, rfl, rfl, h.place, h.world, h.size, h.slots⟩

theorem popMany (h : Stands p m env (vs.reverse ++ items) pc) :
    ∃ m', Machine.popMany vs.length m = .ok vs m' ∧ Stands p m' env items pc := by
  obtain ⟨⟨rest, hsize⟩, slots, place, world⟩ := m
  obtain rfl : rest = vs.reverse ++ items := h.stack
  have hle : vs.length ≤ (vs.reverse ++ items).length := by simp
  have htake : ((vs.reverse ++ items).take vs.length).reverse = vs := by simp
  have hdrop : (vs.reverse ++ items).drop vs.length = items := by simp
  refine ⟨⟨⟨(vs.reverse ++ items).drop vs.length, Nat.le_trans (by simp) hsize⟩, slots, place,
    world⟩, ?_, hdrop, h.place, h.world, h.size, h.slots⟩
  rw [Machine.popMany, Stack.popMany]
  dsimp only
  rw [if_pos hle, htake]

/-- Holding a value is putting it on the stack, which holds as much. -/
theorem push (h : Stands p m env items pc) :
    Matches line (fun a _ env' m' => Stands p m' env' (a :: items) pc)
      (hold (some operandCapacity) items.length line v env) (Machine.push v m) := by
  obtain ⟨⟨rest, hsize⟩, slots, place, world⟩ := m
  cases h.stack
  unfold hold Machine.push Stack.push
  dsimp only
  by_cases hroom : rest.length < operandCapacity
  · rw [if_pos hroom, dif_pos hroom]
    exact ⟨rfl, h.place, h.world, h.size, h.slots⟩
  · rw [if_neg hroom, dif_neg hroom]
    exact ⟨rfl, h.world⟩

/-- Where there is room, a value is put on the stack. -/
theorem push_room (h : Stands p m env items pc) (hroom : items.length < operandCapacity) :
    ∃ m', Machine.push v m = .ok () m' ∧ Stands p m' env (v :: items) pc := by
  obtain ⟨⟨rest, hsize⟩, slots, place, world⟩ := m
  cases h.stack
  unfold Machine.push Stack.push
  dsimp only
  rw [dif_pos hroom]
  exact ⟨_, rfl, rfl, h.place, h.world, h.size, h.slots⟩

end Stands

/-! ## Runs -/

section
variable (p : Program) (functions : FunctionRegistry)

def Simulates {α : Type} (least : Nat) (m : Machine) (Q : α → Environment → Machine → Prop) :
    EStateM.Result Stop Environment α → Prop
  | .ok a env => ∃ n m', Reaches p functions n m m' ∧ Q a env m'
  | .error (.fault e) env => ∃ n m', Reaches p functions n m m' ∧ Fails p functions m' e env.world
  | .error .unfinished _ => ∃ n m', least ≤ n ∧ Reaches p functions n m m'
  | .error .unresolved _ => False

end

namespace Simulates

variable {p : Program} {functions : FunctionRegistry} {α β : Type} {least k : Nat}
  {m m' : Machine} {env : Environment} {Q : α → Environment → Machine → Prop}
  {R : β → Environment → Machine → Prop} {r : EStateM.Result Stop Environment α}

theorem pure {a : α} (h : Q a env m) : Simulates p functions least m Q (.ok a env) :=
  ⟨0, m, .refl, h⟩

theorem after (hr : Reaches p functions k m m') (h : Simulates p functions least m' Q r) :
    Simulates p functions (least + k) m Q r := by
  cases r with
  | ok a env =>
    obtain ⟨n, m'', hn, hq⟩ := h
    exact ⟨k + n, m'', hr.trans hn, hq⟩
  | error stop env =>
    cases stop with
    | fault e =>
      obtain ⟨n, m'', hn, hf⟩ := h
      exact ⟨k + n, m'', hr.trans hn, hf⟩
    | unresolved => exact h
    | unfinished =>
      obtain ⟨n, m'', hle, hn⟩ := h
      exact ⟨k + n, m'', by omega, hr.trans hn⟩

theorem mono {l : Nat} (h : Simulates p functions least m Q r) (hle : l ≤ least) :
    Simulates p functions l m Q r := by
  cases r with
  | ok a env => exact h
  | error stop env =>
    cases stop with
    | unfinished =>
      obtain ⟨n, m', hn, hr⟩ := h
      exact ⟨n, m', Nat.le_trans hle hn, hr⟩
    | _ => exact h

theorem bind {x : Evaluation α} {f : α → Evaluation β} (h : Simulates p functions least m Q (x env))
    (hf : ∀ a env m, Q a env m → Simulates p functions least m R (f a env)) :
    Simulates p functions least m R ((x >>= f) env) := by
  rw [bind_apply]
  cases hx : x env with
  | ok a env' =>
    rw [hx] at h
    obtain ⟨n, m', hn, hq⟩ := h
    exact (after hn (hf a env' m' hq)).mono (Nat.le_add_right _ _)
  | error stop env' =>
    rw [hx] at h
    cases stop <;> exact h

theorem imp {Q' : α → Environment → Machine → Prop} (h : Simulates p functions least m Q r)
    (hQ : ∀ a env m, Q a env m → Q' a env m) : Simulates p functions least m Q' r := by
  cases r with
  | ok a env =>
    obtain ⟨n, m', hn, hq⟩ := h
    exact ⟨n, m', hn, hQ a env m' hq⟩
  | error stop env => cases stop <;> exact h

/-- The run goes on when the evaluation is over. -/
theorem andThen {Q' : α → Environment → Machine → Prop} (h : Simulates p functions least m Q r)
    (hQ : ∀ a env m, Q a env m → Simulates p functions least m Q' (.ok a env)) :
    Simulates p functions least m Q' r := by
  cases r with
  | ok a env =>
    obtain ⟨n, m', hn, hq⟩ := h
    exact (after hn (hQ a env m' hq)).mono (Nat.le_add_right _ _)
  | error stop env => cases stop <;> exact h

/-- One instruction does what the evaluation does. -/
theorem step {i : Instruction} {line : Nat} (hi : p.HasAt m.pc (i, line))
    (h : Matches line (fun a (_ : Unit) env m => Q a env m) r
      (Machine.execute p functions i { m with pc := m.pc + 1 })) :
    Simulates p functions least m Q r := by
  have hline : p.lineAt m.pc = line := by rw [Program.lineAt, hi.2, Option.getD_some]
  cases hx : Machine.execute p functions i { m with pc := m.pc + 1 } with
  | ok u next =>
    rw [hx] at h
    cases r with
    | ok a env => exact ⟨1, next, .one hi.1 hx, h⟩
    | error stop env => cases stop <;> exact h.elim
  | error fault next =>
    rw [hx] at h
    cases r with
    | ok a env => exact h.elim
    | error stop env =>
      cases stop with
      | fault e =>
        obtain ⟨rfl, hworld⟩ := h
        exact ⟨0, m, .refl, i, fault, next, hi.1, hx, by rw [hline], hworld.symm⟩
      | _ => exact h.elim

end Simulates

end Direct
end ScriptEngine
