/-
Instructions act locally.

`Keeps x pops pushes` says of an operation that succeeds that it works on the top of the
stack alone: what is below the values that it takes is afterwards below those that it
puts there, and the variables and the place in the program stay.  Only a store changes a
variable, its own, and only jumps choose where the run goes on (`local_of_execute`).  What
holds of a step holds of a run: a variable that no instruction stores keeps its value
(`Program.execute_local`).
-/
import ScriptEngine.Proofs.Run.Effect
import ScriptEngine.Proofs.Run.Steps

namespace ScriptEngine
namespace Machine

/-! ## Operations -/

def Keeps {α : Type} (x : Operation α) (pops pushes : Nat) : Prop :=
  ∀ m next v, x m = .ok v next →
    next.stack.items.drop pushes = m.stack.items.drop pops ∧ next.slots = m.slots ∧
      next.pc = m.pc

namespace Keeps

variable {α β : Type} {a b c n : Nat}

theorem bind {x : Operation α} {f : α → Operation β} (hx : Keeps x a 0)
    (hf : ∀ v, Keeps (f v) b n) (hc : c = a + b) : Keeps (x >>= f) c n := by
  subst hc
  intro m last r h
  obtain ⟨v, next, hfirst, hsecond⟩ := result_bind_ok h
  obtain ⟨hbelow, hslots, hpc⟩ := hx _ _ _ hfirst
  obtain ⟨hbelow', hslots', hpc'⟩ := hf v _ _ _ hsecond
  refine ⟨?_, hslots'.trans hslots, hpc'.trans hpc⟩
  rw [List.drop_zero] at hbelow
  rw [hbelow', hbelow, List.drop_drop]

theorem pure (v : α) : Keeps (pure v) 0 0 := by
  intro m next r h
  cases h
  exact ⟨rfl, rfl, rfl⟩

theorem throw (fault : RuntimeFault) : Keeps (throw fault : Operation α) a n := nofun

theorem get : Keeps (MonadState.get : Operation Machine) 0 0 := by
  intro m next r h
  cases h
  exact ⟨rfl, rfl, rfl⟩

theorem push (v : Value) : Keeps (push v) 0 1 := by
  intro m next r h
  unfold Machine.push Stack.push at h
  by_cases hroom : m.stack.items.length < operandCapacity
  · rw [dif_pos hroom] at h
    cases h
    exact ⟨rfl, rfl, rfl⟩
  · rw [dif_neg hroom] at h
    cases h

theorem popMany (count : Nat) : Keeps (popMany count) count 0 := by
  intro m next r h
  unfold Machine.popMany Stack.popMany at h
  by_cases hle : count ≤ m.stack.items.length
  · rw [if_pos hle] at h
    cases h
    exact ⟨rfl, rfl, rfl⟩
  · rw [if_neg hle] at h
    cases h

theorem require (x : Option α) (fault : RuntimeFault) : Keeps (require x fault) 0 0 := by
  cases x with
  | some v => exact pure v
  | none => exact throw fault

theorem lift (x : Except RuntimeFault α) : Keeps (lift x) 0 0 := by
  cases x with
  | ok v => exact pure v
  | error fault => exact throw fault

theorem load (p : Program) (slot : Nat) : Keeps (load p slot) 0 0 := by
  refine bind (b := 0) get (fun m => ?_) rfl
  refine bind (b := 0) (require _ _) (fun v => ?_) rfl
  cases v with
  | unset => exact throw _
  | number | bool | string | object => exact pure _

theorem callFunction (functions : FunctionRegistry) (handle : Nat) (args : List Value) :
    Keeps (callFunction functions handle args) 0 0 := by
  intro m next r h
  unfold Machine.callFunction at h
  cases hentry : functions.entry? handle with
  | none =>
    rw [hentry] at h
    cases h
  | some entry =>
    rw [hentry] at h
    dsimp only at h
    cases hcall : (entry.function.call args).run m.world with
    | ok v changed =>
      rw [hcall] at h
      cases h
      exact ⟨rfl, rfl, rfl⟩
    | error e changed =>
      rw [hcall] at h
      cases h

theorem callMethod (p : Program) (functions : FunctionRegistry) (method argc : Nat) :
    Keeps (callMethod p functions method argc) (argc + 1) 0 := by
  refine bind (require _ _) (fun table => ?_) (Nat.zero_add _).symm
  have hcall : Keeps (do
      let args ← Machine.popMany (argc + 1)
      let handle ← Machine.lift (dispatch table argc args)
      Machine.callFunction functions handle args) (argc + 1) 0 :=
    bind (popMany _) (fun args => bind (lift _) (fun handle => callFunction _ _ _) rfl) rfl
  split
  · exact throw _
  · exact hcall

end Keeps

/-- A value comes off the stack, and nothing else changes. -/
theorem pop_ok {m next : Machine} {v : Value} (h : pop m = .ok v next) :
    m.stack.items = v :: next.stack.items ∧ next.slots = m.slots ∧ next.pc = m.pc := by
  obtain ⟨⟨items, hsize⟩, slots, pc, world⟩ := m
  cases items with
  | nil => cases h
  | cons top rest =>
    cases h
    exact ⟨rfl, rfl, rfl⟩

theorem Keeps.pop : Keeps pop 1 0 := by
  intro m next v h
  obtain ⟨hitems, hslots, hpc⟩ := pop_ok h
  refine ⟨?_, hslots, hpc⟩
  rw [hitems]
  rfl

theorem store_ok {slot : Nat} {v : Value} {m next : Machine}
    (h : store slot v m = .ok () next) :
    next = { m with slots := m.slots.setIfInBounds slot v } := by
  obtain ⟨m', next', hget, hset⟩ := result_bind_ok h
  cases hget
  split at hset
  · cases hset
    rfl
  · cases hset

theorem jump_ok {p : Program} {target : Nat} {m next : Machine}
    (h : jump p target m = .ok () next) : next = { m with pc := target } := by
  unfold jump at h
  split at h
  · cases h
    rfl
  · cases h

/-! ## Instructions -/

/-- Where the run goes on behind an instruction that succeeds. -/
def successor (m : Machine) : Instruction → Nat
  | .jump target => target
  | .jumpIfFalse target =>
    match m.stack.items with
    | .bool false :: _ => target
    | _ => m.pc + 1
  | _ => m.pc + 1

/-- What an instruction changes in a machine that is at it. -/
structure Local (i : Instruction) (m m' : Machine) : Prop where
  depth : (m'.stack.size : Int) = m.stack.size + i.stackEffect
  operands : i.pops ≤ m.stack.size
  /-- Below the operands and below the result the stack is the same. -/
  below : m'.stack.items.drop i.pushes = m.stack.items.drop i.pops
  size : m'.slots.size = m.slots.size
  slots : ∀ slot, i ≠ .store slot → m'.slots[slot]? = m.slots[slot]?
  place : m'.pc = m.successor i

section
variable {p : Program} {natives : FunctionRegistry} {i : Instruction} {m m' : Machine}

/-- The stack has its depth from the effect, so what is left is the frame. -/
theorem Local.of_execute (h : execute p natives i { m with pc := m.pc + 1 } = .ok () m')
    (hbelow : m'.stack.items.drop i.pushes = m.stack.items.drop i.pops)
    (hsize : m'.slots.size = m.slots.size)
    (hslots : ∀ slot, i ≠ .store slot → m'.slots[slot]? = m.slots[slot]?)
    (hplace : m'.pc = m.successor i) : Local i m m' := by
  have heffect := execute_effect p natives i { m with pc := m.pc + 1 }
  rw [h] at heffect
  obtain ⟨hdepth, hoperands, -⟩ := heffect
  replace hdepth : m'.stack.size + i.pops = m.stack.size + i.pushes := hdepth
  refine ⟨?_, hoperands, hbelow, hsize, hslots, hplace⟩
  rw [i.stackEffect_eq]
  omega

/-- An instruction that keeps the variables and the place goes on behind itself. -/
theorem Keeps.local (hx : Keeps (execute p natives i) i.pops i.pushes)
    (h : execute p natives i { m with pc := m.pc + 1 } = .ok () m')
    (hplace : m.successor i = m.pc + 1) : Local i m m' := by
  obtain ⟨hbelow, hslots, hpc⟩ := hx _ _ _ h
  refine .of_execute h hbelow (congrArg Array.size hslots) (fun slot _ => ?_)
    (hpc.trans hplace.symm)
  rw [hslots]

theorem store_local {slot : Nat}
    (h : execute p natives (.store slot) { m with pc := m.pc + 1 } = .ok () m') :
    Local (.store slot) m m' := by
  obtain ⟨v, next, hpop, hstore⟩ := result_bind_ok h
  obtain ⟨hitems, hslots, hpc⟩ := pop_ok hpop
  replace hitems : m.stack.items = v :: next.stack.items := hitems
  cases store_ok hstore
  refine .of_execute h ?_ ?_ (fun other hne => ?_) hpc
  · rw [hitems]
    rfl
  · rw [Array.size_setIfInBounds, hslots]
  · have hother : slot ≠ other := fun heq => hne (congrArg Instruction.store heq)
    rw [Array.getElem?_setIfInBounds_ne hother, hslots]

theorem jump_local {target : Nat}
    (h : execute p natives (.jump target) { m with pc := m.pc + 1 } = .ok () m') :
    Local (.jump target) m m' := by
  have hjump := jump_ok h
  subst hjump
  exact .of_execute h rfl rfl (fun _ _ => rfl) rfl

theorem condition_ok {v : Value} {b : Bool} (h : v.condition = .ok b) : v = .bool b := by
  cases v with
  | bool c =>
    cases h
    rfl
  | unset | number | string | object => cases h

theorem jumpIfFalse_local {target : Nat}
    (h : execute p natives (.jumpIfFalse target) { m with pc := m.pc + 1 } = .ok () m') :
    Local (.jumpIfFalse target) m m' := by
  obtain ⟨v, next, hpop, hrest⟩ := result_bind_ok h
  obtain ⟨b, next', hlift, hgo⟩ := result_bind_ok hrest
  obtain ⟨hitems, hslots, hpc⟩ := pop_ok hpop
  replace hitems : m.stack.items = v :: next.stack.items := hitems
  replace hpc : next.pc = m.pc + 1 := hpc
  obtain ⟨rfl, rfl⟩ : v = .bool b ∧ next' = next := by
    cases hcondition : v.condition with
    | ok c =>
      rw [hcondition] at hlift
      cases hlift
      exact ⟨condition_ok hcondition, rfl⟩
    | error fault =>
      rw [hcondition] at hlift
      cases hlift
  cases b with
  | true =>
    cases hgo
    refine .of_execute h ?_ (congrArg Array.size hslots) (fun _ _ => by rw [hslots]) ?_
    · rw [hitems]
      rfl
    · rw [successor, hitems]
      exact hpc
  | false =>
    cases jump_ok hgo
    refine .of_execute h ?_ (congrArg Array.size hslots) (fun _ _ => by rw [hslots]) ?_
    · rw [hitems]
      rfl
    · rw [successor, hitems]

theorem local_of_execute (h : execute p natives i { m with pc := m.pc + 1 } = .ok () m') :
    Local i m m' := by
  cases i with
  | constant index => exact Keeps.local (.bind (.require _ _) (fun _ => .push _) rfl) h rfl
  | load slot => exact Keeps.local (.bind (.load p slot) (fun _ => .push _) rfl) h rfl
  | store slot => exact store_local h
  | pop => exact Keeps.local (.bind .pop (fun _ => .pure _) rfl) h rfl
  | unary op =>
    exact Keeps.local (.bind .pop (fun _ => .bind (.lift _) (fun _ => .push _) rfl) rfl) h rfl
  | binary op =>
    refine Keeps.local (.bind .pop (fun right => .bind (b := 0) .pop (fun left => ?_) rfl) rfl)
      h rfl
    exact .bind (b := 0) .get (fun _ => .bind (.lift _) (fun _ => .push _) rfl) rfl
  | jump target => exact jump_local h
  | jumpIfFalse target => exact jumpIfFalse_local h
  | call handle argc =>
    exact Keeps.local (.bind (.popMany argc) (fun args => .bind (.callFunction natives handle args)
      (fun _ => .push _) rfl) rfl) h rfl
  | callMethod method argc =>
    exact Keeps.local (.bind (.callMethod p natives method argc) (fun _ => .push _) rfl) h rfl

/-! ## Runs -/

/-- A run changes only variables that some instruction stores. -/
theorem Reaches.slot {n slot : Nat} (h : Reaches p natives n m m')
    (hslot : .store slot ∉ p.code) : m'.slots[slot]? = m.slots[slot]? := by
  induction h with
  | refl => rfl
  | @next n i m next last hi hx _ ih =>
    have hne : i ≠ .store slot := fun heq => hslot (heq ▸ Array.mem_of_getElem? hi)
    exact ih.trans ((local_of_execute hx).slots slot hne)

theorem Reaches.slots_size {n : Nat} (h : Reaches p natives n m m') :
    m'.slots.size = m.slots.size := by
  induction h with
  | refl => rfl
  | next _ hx _ ih => exact ih.trans (local_of_execute hx).size

end
end Machine

/-- Every instruction that succeeds does what it says to the stack and to the variables, and so
does every run. -/
structure Program.ActsLocally (p : Program) (natives : FunctionRegistry) : Prop where
  step : ∀ i m m', Machine.execute p natives i { m with pc := m.pc + 1 } = .ok () m' →
    Machine.Local i m m'
  run_size : ∀ n m m', Machine.Reaches p natives n m m' → m'.slots.size = m.slots.size
  run_slots : ∀ n m m', Machine.Reaches p natives n m m' → ∀ slot, .store slot ∉ p.code →
    m'.slots[slot]? = m.slots[slot]?

theorem Program.execute_local (p : Program) (natives : FunctionRegistry) :
    p.ActsLocally natives where
  step _ _ _ h := Machine.local_of_execute h
  run_size _ _ _ h := h.slots_size
  run_slots _ _ _ h _ hslot := h.slot hslot

end ScriptEngine
