/-
What an instruction does to the depth of the stack.

Every instruction takes its operands off and then puts at most one value on, whatever
the natives and the tables of the program are.  `Effect x pops pushes target` says this
of an operation together with its two ways to fail on the stack: it underflows only when
there are not enough operands, and overflows only when the stack is full without them.
It also says where the operation may go on.
-/
import ScriptEngine.Machine.Run
import ScriptEngine.Proofs.Sequence

namespace ScriptEngine

/-! ## Instructions -/

namespace Instruction

def pops : Instruction → Nat
  | constant _ | load _ | jump _ => 0
  | store _ | pop | unary _ | jumpIfFalse _ => 1
  | binary _ => 2
  | call _ argc => argc
  | callMethod _ argc => argc + 1

def pushes : Instruction → Nat
  | constant _ | load _ | unary _ | binary _ | call .. | callMethod .. => 1
  | store _ | pop | jump _ | jumpIfFalse _ => 0

def target? : Instruction → Option Nat
  | jump target | jumpIfFalse target => some target
  | _ => none

theorem stackEffect_eq (i : Instruction) : i.stackEffect = i.pushes - i.pops := by
  cases i <;> simp only [stackEffect, pushes, pops] <;> omega

end Instruction

namespace Machine

theorem size_le (m : Machine) : m.stack.size ≤ operandCapacity := m.stack.size_le

/-! ## Operations -/

def Effect {α : Type} (x : Operation α) (pops pushes : Nat) (target : Option Nat) : Prop :=
  ∀ m, match x m with
    | .ok _ next => next.stack.size + pops = m.stack.size + pushes ∧ pops ≤ m.stack.size ∧
        (next.pc = m.pc ∨ target = some next.pc)
    | .error fault _ => (fault = .stackUnderflow → m.stack.size < pops) ∧
        ∀ c, fault = .stackOverflow c →
          c = operandCapacity ∧ operandCapacity + pops < m.stack.size + pushes

namespace Effect

variable {α β : Type} {a b c n : Nat} {t : Option Nat}

/-- Operands are taken off first, so only what comes last may put a value on. -/
theorem bind {x : Operation α} {f : α → Operation β} (hx : Effect x a 0 none)
    (hf : ∀ v, Effect (f v) b n t) (hc : c = a + b) : Effect (x >>= f) c n t := by
  subst hc
  intro m
  have hm := hx m
  have hle := size_le m
  rw [bind_apply]
  cases hr : x m with
  | ok v next =>
    rw [hr] at hm
    obtain ⟨hsize, hpops, hpc⟩ := hm
    have hn := hf v next
    dsimp only
    cases hfr : f v next with
    | ok r last =>
      rw [hfr] at hn
      rw [hpc.resolve_right (by simp)] at hn
      exact ⟨by omega, by omega, hn.2.2⟩
    | error fault last =>
      rw [hfr] at hn
      refine ⟨fun h => ?_, fun c h => ?_⟩
      · have := hn.1 h
        omega
      · have := hn.2 c h
        exact ⟨this.1, by omega⟩
  | error fault next =>
    rw [hr] at hm
    refine ⟨fun h => Nat.lt_of_lt_of_le (hm.1 h) (Nat.le_add_right a b), fun c h => ?_⟩
    have := hm.2 c h
    omega

theorem pure (v : α) : Effect (pure v) 0 0 t := fun _ => ⟨rfl, Nat.zero_le _, .inl rfl⟩

theorem throw {fault : RuntimeFault} (hu : fault ≠ .stackUnderflow)
    (ho : ∀ c, fault ≠ .stackOverflow c) : Effect (throw fault : Operation α) a b t :=
  fun _ => ⟨fun h => absurd h hu, fun c h => absurd h (ho c)⟩

theorem get : Effect (MonadState.get : Operation Machine) 0 0 t :=
  fun _ => ⟨rfl, Nat.zero_le _, .inl rfl⟩

theorem push (v : Value) : Effect (push v) 0 1 none := by
  intro m
  unfold Machine.push Stack.push
  have hle := size_le m
  by_cases h : m.stack.items.length < operandCapacity
  · rw [dif_pos h]
    exact ⟨rfl, Nat.zero_le _, .inl rfl⟩
  · rw [dif_neg h]
    refine ⟨nofun, fun c hc => ⟨?_, ?_⟩⟩
    · cases hc
      rfl
    · show operandCapacity + 0 < m.stack.items.length + 1
      omega

theorem pop : Effect pop 1 0 none := by
  intro m
  obtain ⟨⟨items, hsize⟩, slots, pc, world⟩ := m
  cases items with
  | nil => exact ⟨fun _ => Nat.zero_lt_one, nofun⟩
  | cons v rest => exact ⟨rfl, Nat.succ_le_succ (Nat.zero_le _), .inl rfl⟩

theorem popMany (count : Nat) : Effect (popMany count) count 0 none := by
  intro m
  unfold Machine.popMany Stack.popMany
  by_cases h : count ≤ m.stack.items.length
  · rw [if_pos h]
    refine ⟨?_, h, .inl rfl⟩
    show (m.stack.items.drop count).length + count = m.stack.items.length + 0
    rw [List.length_drop]
    omega
  · rw [if_neg h]
    exact ⟨fun _ => Nat.lt_of_not_le h, nofun⟩

theorem require {x : Option α} {fault : RuntimeFault} (hu : fault ≠ .stackUnderflow)
    (ho : ∀ c, fault ≠ .stackOverflow c) : Effect (require x fault) 0 0 none := by
  cases x with
  | some a => exact pure a
  | none => exact throw hu ho

theorem lift {x : Except RuntimeFault α} (hu : x ≠ .error .stackUnderflow)
    (ho : ∀ c, x ≠ .error (.stackOverflow c)) : Effect (lift x) 0 0 none := by
  cases x with
  | ok a => exact pure a
  | error e => exact throw (fun h => hu (h ▸ rfl)) fun c h => ho c (h ▸ rfl)

theorem load (p : Program) (slot : Nat) : Effect (load p slot) 0 0 none := by
  refine bind (b := 0) get (fun m => ?_) rfl
  refine bind (b := 0) (require (by simp) (by simp)) (fun v => ?_) rfl
  cases v with
  | unset => exact throw (by simp) (by simp)
  | _ => exact pure _

theorem store (slot : Nat) (v : Value) : Effect (store slot v) 0 0 none := by
  refine bind (b := 0) get (fun m => ?_) rfl
  split
  · exact fun _ => ⟨rfl, Nat.zero_le _, .inl rfl⟩
  · exact throw (by simp) (by simp)

theorem jump (p : Program) (target : Nat) : Effect (jump p target) 0 0 (some target) := by
  unfold Machine.jump
  split
  · exact fun _ => ⟨rfl, Nat.zero_le _, .inr rfl⟩
  · exact throw (by simp) (by simp)

theorem callFunction (functions : FunctionRegistry) (handle : Nat) (args : List Value) :
    Effect (callFunction functions handle args) 0 0 none := by
  intro m
  unfold Machine.callFunction
  cases functions.entry? handle with
  | none => exact ⟨nofun, nofun⟩
  | some entry =>
    dsimp only
    cases (entry.function.call args).run m.world with
    | ok v changed => exact ⟨rfl, Nat.zero_le _, .inl rfl⟩
    | error e changed => exact ⟨nofun, nofun⟩

end Effect

/-! ## Faults that are none of the stack -/

theorem binary_ne_stack (s : Store) (op : BinaryOp) (left right : Value) :
    Value.binary s op left right ≠ .error .stackUnderflow ∧
      ∀ c, Value.binary s op left right ≠ .error (.stackOverflow c) := by
  cases op <;> cases left <;> cases right <;>
    simp [Value.binary, Value.logical, Value.add, Value.arithmetic, Value.mismatch]

theorem unary_ne_stack (op : UnaryOp) (v : Value) :
    Value.unary op v ≠ .error .stackUnderflow ∧
      ∀ c, Value.unary op v ≠ .error (.stackOverflow c) := by
  cases op <;> cases v <;> simp [Value.unary]

theorem condition_ne_stack (v : Value) :
    v.condition ≠ .error .stackUnderflow ∧ ∀ c, v.condition ≠ .error (.stackOverflow c) := by
  cases v <;> simp [Value.condition]

theorem dispatch_ne_stack (table : MethodTable) (argc : Nat) (args : List Value) :
    dispatch table argc args ≠ .error .stackUnderflow ∧
      ∀ c, dispatch table argc args ≠ .error (.stackOverflow c) := by
  unfold dispatch
  split
  · split
    · simp
    · split <;> simp
  · simp
  · simp

theorem callMethod_effect (p : Program) (functions : FunctionRegistry) (method argc : Nat) :
    Effect (callMethod p functions method argc) (argc + 1) 0 none := by
  refine .bind (.require (by simp) (by simp)) (fun table => ?_) (Nat.zero_add _).symm
  have hcall : Effect (do
      let args ← popMany (argc + 1)
      let handle ← lift (dispatch table argc args)
      callFunction functions handle args) (argc + 1) 0 none :=
    .bind (.popMany _) (fun args => .bind
      (.lift (dispatch_ne_stack table argc args).1 (dispatch_ne_stack table argc args).2)
      (fun handle => .callFunction functions handle args) rfl) rfl
  split
  · exact .throw (by simp) (by simp)
  · exact hcall

/-- Every instruction has the effect of its operands and its result. -/
theorem execute_effect (p : Program) (functions : FunctionRegistry) (i : Instruction) :
    Effect (execute p functions i) i.pops i.pushes i.target? := by
  cases i with
  | constant index =>
    exact .bind (.require (by simp) (by simp)) (fun c : Constant => .push c.toValue) rfl
  | load slot => exact .bind (.load p slot) (fun v => .push v) rfl
  | store slot => exact .bind .pop (fun v => .store slot v) rfl
  | pop => exact .bind .pop (fun v => .pure ()) rfl
  | unary op =>
    exact .bind .pop (fun v => .bind
      (.lift (unary_ne_stack op v).1 (unary_ne_stack op v).2) (fun r => .push r) rfl) rfl
  | binary op =>
    refine .bind .pop (fun right => .bind (b := 0) .pop (fun left => ?_) rfl) rfl
    refine .bind (b := 0) .get (fun m => ?_) rfl
    have hne := binary_ne_stack m.world.store op left right
    exact .bind (.lift hne.1 hne.2) (fun r => .push r) rfl
  | jump target => exact .jump p target
  | jumpIfFalse target =>
    refine .bind .pop (fun v => .bind (b := 0)
      (.lift (condition_ne_stack v).1 (condition_ne_stack v).2) (fun b => ?_) rfl) rfl
    cases b with
    | true => exact .pure ()
    | false => exact .jump p target
  | call handle argc =>
    exact .bind (.popMany argc) (fun args => .bind (.callFunction functions handle args)
      (fun v => .push v) rfl) rfl
  | callMethod method argc =>
    exact .bind (callMethod_effect p functions method argc) (fun v => .push v) rfl

end Machine
end ScriptEngine
