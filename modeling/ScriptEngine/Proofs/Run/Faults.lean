/-
What an instruction can fail with.

Every instruction checks its operands before it uses them, and each fault names what was
wrong.  `Instruction.Blames` says for every fault which instruction raises it and why, and
`execute_sound` that no instruction fails for another reason, whatever the program, its
tables and the natives are, and that no step leaves the bounds of the program.

There is one gap.  A method call counts its receiver to its arguments, and with the greatest
number that a machine word can hold this count has no place.  There, and nowhere else, a run
breaks off (`Program.safe`).
-/
import ScriptEngine.Proofs.Run.Appending
import ScriptEngine.Proofs.Run.Effect

namespace ScriptEngine

/-! ## Causes -/

namespace Instruction

/-- An instruction that calls the function of a handle with a number of values.  A method call
calls some function of its table. -/
inductive Calls (p : Program) : Instruction → (handle count : Nat) → Prop where
  | call {handle argc} : Calls p (.call handle argc) handle argc
  | method {index argc t className handle} : p.methods[index]? = some t →
      (className, handle) ∈ t.classes → Calls p (.callMethod index argc) handle (argc + 1)

/-- A method call whose arguments together with the receiver a machine word cannot count. -/
def Overcounts (p : Program) (i : Instruction) : Prop :=
  ∃ index argc, i = .callMethod index argc ∧ index < p.methods.size ∧
    wordLimit ≤ argc + 1

/-- What is wrong where an instruction fails. -/
def Blames (p : Program) (functions : FunctionRegistry) (i : Instruction) : RuntimeFault → Prop
  | .stackOverflow capacity => capacity = operandCapacity ∧ i.pushes = 1
  | .stackUnderflow => 0 < i.pops
  | .unsetVariable name => ∃ slot, i = .load slot ∧ name = (p.slotName? slot).getD "?"
  | .invalidSlot slot => (i = .load slot ∨ i = .store slot) ∧ p.slotNames.size ≤ slot
  | .invalidConstant index => i = .constant index ∧ p.constants.size ≤ index
  | .invalidJump target size => i.target? = some target ∧ size = p.size ∧ p.size < target
  | .invalidMethodIndex index => ∃ argc, i = .callMethod index argc ∧ p.methods.size ≤ index
  -- only operators are applied to two values
  | .invalidInstruction _ => False
  | .invalidFunctionHandle handle => ∃ count, i.Calls p handle count ∧
      functions.entry? handle = none
  | .typeMismatch .. => ∃ op, i = .binary op
  | .unaryTypeMismatch .. => ∃ op, i = .unary op
  | .conditionNotBool _ => ∃ target, i = .jumpIfFalse target
  | .notAnObject .. | .noSuchMethod .. | .wrongReceiver .. => ∃ index argc, i = .callMethod index argc
  | .native name cause => ∃ handle entry args w after, i.Calls p handle args.length ∧
      functions.entry? handle = some entry ∧ name = entry.name ∧
      (entry.function.call args).run w = .error cause after
  | .countOverflow => i.Overcounts p

end Instruction

theorem Stack.popMany_of_le {α : Type} {capacity count : Nat} {s : Stack α capacity}
    (h : count ≤ s.size) : ∃ vs rest, s.popMany count = .ok (vs, rest) ∧ vs.length = count := by
  refine ⟨_, _, if_pos h, ?_⟩
  rw [List.length_reverse, List.length_take]
  exact Nat.min_eq_left h

namespace Machine

/-- The machine is within the program, and has a slot for each of its variables. -/
structure InBounds (p : Program) (m : Machine) : Prop where
  place : m.pc ≤ p.size
  slots : m.slots.size = p.slotNames.size

/-! ## Operations -/

/-- An operation stays within the bounds of the program, gives such a value, and fails only so. -/
def Sound {α : Type} (p : Program) (x : Operation α) (gives : α → Prop)
    (why : RuntimeFault → Prop) : Prop :=
  ∀ m, m.InBounds p → match x m with
    | .ok a next => next.InBounds p ∧ gives a
    | .error fault next => next.InBounds p ∧ why fault

namespace Sound

variable {α β : Type} {p : Program} {G : α → Prop} {H : β → Prop} {why : RuntimeFault → Prop}

theorem bind {x : Operation α} {f : α → Operation β} (hx : Sound p x G why)
    (hf : ∀ a, G a → Sound p (f a) H why) : Sound p (x >>= f) H why := by
  intro m hm
  have hfirst := hx m hm
  rw [bind_apply]
  cases hr : x m with
  | ok a next =>
    rw [hr] at hfirst
    exact hf a hfirst.2 next hfirst.1
  | error fault next =>
    rw [hr] at hfirst
    exact hfirst

theorem pure {a : α} (h : G a) : Sound p (pure a) G why := fun _ hm => ⟨hm, h⟩

theorem throw {fault : RuntimeFault} (h : why fault) :
    Sound p (throw fault : Operation α) G why := fun _ hm => ⟨hm, h⟩

theorem get_bind {f : Machine → Operation β} (h : ∀ m, m.InBounds p → Sound p (f m) H why) :
    Sound p (get >>= f) H why := fun m hm => h m hm m hm

theorem require {x : Option α} {fault : RuntimeFault} (h : x = none → why fault) :
    Sound p (require x fault) (fun a => x = some a) why := by
  cases x with
  | some a => exact pure rfl
  | none => exact throw (h rfl)

theorem lift {x : Except RuntimeFault α} (h : ∀ fault, x = .error fault → why fault) :
    Sound p (lift x) (fun a => x = .ok a) why := by
  cases x with
  | ok a => exact pure rfl
  | error fault => exact throw (h fault rfl)

theorem push {v : Value} (h : why (.stackOverflow operandCapacity)) :
    Sound p (push v) (fun _ => True) why := by
  intro m hm
  unfold Machine.push Stack.push
  by_cases hroom : m.stack.items.length < operandCapacity
  · rw [dif_pos hroom]
    exact ⟨⟨hm.place, hm.slots⟩, trivial⟩
  · rw [dif_neg hroom]
    exact ⟨hm, h⟩

theorem pop (h : why .stackUnderflow) : Sound p pop (fun _ => True) why := by
  rintro ⟨⟨items, hsize⟩, slots, pc, world⟩ hm
  cases items with
  | nil => exact ⟨hm, h⟩
  | cons v rest => exact ⟨⟨hm.place, hm.slots⟩, trivial⟩

theorem popMany {count : Nat} (h : 0 < count → why .stackUnderflow) :
    Sound p (popMany count) (fun vs => vs.length = count) why := by
  intro m hm
  unfold Machine.popMany
  by_cases hcount : count ≤ m.stack.size
  · obtain ⟨vs, rest, hpop, hlength⟩ := Stack.popMany_of_le hcount
    rw [hpop]
    exact ⟨⟨hm.place, hm.slots⟩, hlength⟩
  · have hpop : m.stack.popMany count = .error .underflow := if_neg hcount
    rw [hpop]
    exact ⟨hm, h (Nat.zero_lt_of_lt (Nat.lt_of_not_le hcount))⟩

theorem load {slot : Nat} (hslot : p.slotNames.size ≤ slot → why (.invalidSlot slot))
    (hunset : why (.unsetVariable ((p.slotName? slot).getD "?"))) :
    Sound p (load p slot) (fun _ => True) why := by
  refine get_bind fun m hm => ?_
  have hmissing : m.slots[slot]? = none → why (.invalidSlot slot) := by
    rw [Array.getElem?_eq_none_iff, hm.slots]
    exact hslot
  refine bind (require hmissing) fun v _ => ?_
  cases v with
  | unset => exact throw hunset
  | _ => exact pure trivial

theorem store {slot : Nat} {v : Value}
    (hslot : p.slotNames.size ≤ slot → why (.invalidSlot slot)) :
    Sound p (store slot v) (fun _ => True) why := by
  refine get_bind fun m hm => ?_
  by_cases hlt : slot < m.slots.size
  · rw [if_pos hlt]
    intro m' hm'
    exact ⟨⟨hm'.place, Array.size_setIfInBounds.trans hm'.slots⟩, trivial⟩
  · rw [if_neg hlt]
    refine throw (hslot ?_)
    rw [← hm.slots]
    exact Nat.le_of_not_lt hlt

theorem jump {target : Nat} (h : p.size < target → why (.invalidJump target p.size)) :
    Sound p (jump p target) (fun _ => True) why := by
  unfold Machine.jump
  by_cases hle : target ≤ p.size
  · rw [if_pos hle]
    exact fun m hm => ⟨⟨hle, hm.slots⟩, trivial⟩
  · rw [if_neg hle]
    exact throw (h (Nat.lt_of_not_le hle))

theorem callFunction {functions : FunctionRegistry} {handle : Nat} {args : List Value}
    (hnone : functions.entry? handle = none → why (.invalidFunctionHandle handle))
    (hnative : ∀ entry w cause after, functions.entry? handle = some entry →
      (entry.function.call args).run w = .error cause after → why (.native entry.name cause)) :
    Sound p (callFunction functions handle args) (fun _ => True) why := by
  intro m hm
  unfold Machine.callFunction
  cases he : functions.entry? handle with
  | none => exact ⟨hm, hnone he⟩
  | some entry =>
    cases hr : (entry.function.call args).run m.world with
    | ok v changed =>
      simp only [hr]
      exact ⟨⟨hm.place, hm.slots⟩, trivial⟩
    | error cause after =>
      simp only [hr]
      exact ⟨⟨hm.place, hm.slots⟩, hnative entry m.world cause after he hr⟩

end Sound

/-! ## Instructions -/

variable {p : Program} {functions : FunctionRegistry}

theorem unary_faults {op : UnaryOp} {v : Value} {fault : RuntimeFault}
    (h : Value.unary op v = .error fault) : (Instruction.unary op).Blames p functions fault := by
  cases op <;> cases v <;> cases h <;> exact ⟨_, rfl⟩

theorem binary_faults {s : Store} {op : BinaryOp} {left right : Value} {fault : RuntimeFault}
    (h : Value.binary s op left right = .error fault) :
    (Instruction.binary op).Blames p functions fault := by
  cases op <;> cases left <;> cases right <;> cases h <;> exact ⟨_, rfl⟩

theorem condition_faults {v : Value} {target : Nat} {fault : RuntimeFault}
    (h : v.condition = .error fault) :
    (Instruction.jumpIfFalse target).Blames p functions fault := by
  cases v <;> cases h <;> exact ⟨target, rfl⟩

/-- A receiver is always among the values of a method call, so that is never what is missing. -/
theorem dispatch_faults {t : MethodTable} {index argc : Nat} {args : List Value}
    {fault : RuntimeFault} (hargs : args.length = argc + 1)
    (h : dispatch t argc args = .error fault) :
    (Instruction.callMethod index argc).Blames p functions fault := by
  cases args with
  | nil => cases hargs
  | cons receiver args =>
    cases receiver with
    | object ref =>
      rw [dispatch] at h
      cases hhandle : t.handleFor? ref.className with
      | some handle =>
        rw [hhandle] at h
        cases h
      | none =>
        rw [hhandle] at h
        cases hsole : t.soleClass? <;> rw [hsole] at h <;> cases h <;> exact ⟨index, argc, rfl⟩
    | _ =>
      cases h
      exact ⟨index, argc, rfl⟩

theorem callMethod_sound (p : Program) (functions : FunctionRegistry) (index argc : Nat) :
    Sound p (callMethod p functions index argc) (fun _ => True)
      ((Instruction.callMethod index argc).Blames p functions) := by
  have hmissing : p.methods[index]? = none →
      (Instruction.callMethod index argc).Blames p functions (.invalidMethodIndex index) :=
    fun h => ⟨argc, rfl, Array.getElem?_eq_none_iff.mp h⟩
  refine .bind (.require hmissing) fun t ht => ?_
  have hcall : Sound p (do
      let args ← popMany (argc + 1)
      let handle ← lift (dispatch t argc args)
      callFunction functions handle args) (fun _ => True)
      ((Instruction.callMethod index argc).Blames p functions) := by
    refine .bind (.popMany fun hcount => hcount) fun args hargs => ?_
    refine .bind (.lift fun fault h => dispatch_faults hargs h) fun handle hhandle => ?_
    obtain ⟨className, hmem⟩ := mem_of_dispatch hhandle
    have hcalls : (Instruction.callMethod index argc).Calls p handle (argc + 1) := .method ht hmem
    refine .callFunction (fun hnone => ⟨_, hcalls, hnone⟩) fun entry w cause after he hr => ?_
    exact ⟨handle, entry, args, w, after, hargs ▸ hcalls, he, rfl, hr⟩
  split
  · next hword => exact .throw ⟨index, argc, rfl, (Array.getElem?_eq_some_iff.mp ht).1, hword⟩
  · exact hcall

/-- An instruction stays within the bounds of the program, and fails only where it is to blame. -/
theorem execute_sound (p : Program) (functions : FunctionRegistry) (i : Instruction) :
    Sound p (execute p functions i) (fun _ => True) (i.Blames p functions) := by
  cases i with
  | constant index =>
    have hmissing : p.constants.get? index = none →
        (Instruction.constant index).Blames p functions (.invalidConstant index) :=
      fun h => ⟨rfl, Array.getElem?_eq_none_iff.mp h⟩
    exact .bind (.require hmissing) fun k _ => .push ⟨rfl, rfl⟩
  | load slot =>
    exact .bind (.load (fun h => ⟨.inl rfl, h⟩) ⟨slot, rfl, rfl⟩) fun v _ => .push ⟨rfl, rfl⟩
  | store slot =>
    exact .bind (.pop Nat.one_pos) fun v _ => .store fun h => ⟨.inr rfl, h⟩
  | pop => exact .bind (.pop Nat.one_pos) fun v _ => .pure trivial
  | unary op =>
    refine .bind (.pop Nat.one_pos) fun v _ => ?_
    exact .bind (.lift fun fault h => unary_faults h) fun r _ => .push ⟨rfl, rfl⟩
  | binary op =>
    refine .bind (.pop Nat.two_pos) fun right _ => .bind (.pop Nat.two_pos) fun left _ => ?_
    refine .get_bind fun m _ => ?_
    exact .bind (.lift fun fault h => binary_faults h) fun r _ => .push ⟨rfl, rfl⟩
  | jump target => exact .jump fun h => ⟨rfl, rfl, h⟩
  | jumpIfFalse target =>
    refine .bind (.pop Nat.one_pos) fun v _ => ?_
    refine .bind (.lift fun fault h => condition_faults h) fun b _ => ?_
    cases b with
    | true => exact .pure trivial
    | false => exact .jump fun h => ⟨rfl, rfl, h⟩
  | call handle argc =>
    refine .bind (.popMany fun hcount => hcount) fun args hargs => ?_
    refine .bind (.callFunction (fun hnone => ⟨argc, .call, hnone⟩) ?_) fun v _ => .push ⟨rfl, rfl⟩
    intro entry w cause after he hr
    exact ⟨handle, entry, args, w, after, hargs ▸ .call, he, rfl, hr⟩
  | callMethod index argc =>
    exact .bind (callMethod_sound p functions index argc) fun v _ => .push ⟨rfl, rfl⟩

/-- The count is checked before the operands, so it breaks off whatever the stack holds. -/
theorem execute_overcounts {i : Instruction} (h : i.Overcounts p) (m : Machine) :
    execute p functions i m = .error .countOverflow m := by
  obtain ⟨index, argc, rfl, hindex, hword⟩ := h
  have hrequire : require p.methods[index]? (.invalidMethodIndex index) m =
      .ok p.methods[index] m := by
    rw [Array.getElem?_eq_getElem hindex]
    rfl
  have hcall : callMethod p functions index argc m = .error .countOverflow m := by
    unfold callMethod
    rw [bind_apply, hrequire]
    dsimp only
    rw [if_pos hword]
    rfl
  show (callMethod p functions index argc >>= push) m = _
  rw [bind_apply, hcall]

theorem start_inBounds (p : Program) (w : World) : (start p w).InBounds p :=
  ⟨Nat.zero_le _, Array.size_replicate⟩

/-- The place behind an instruction is one of the program. -/
theorem InBounds.advance {m : Machine} {i : Instruction} (h : m.InBounds p)
    (hi : p.code[m.pc]? = some i) : InBounds p { m with pc := m.pc + 1 } :=
  ⟨(Array.getElem?_eq_some_iff.mp hi).1, h.slots⟩

theorem Reaches.inBounds {n : Nat} {m m' : Machine} (h : Reaches p functions n m m')
    (hm : m.InBounds p) : m'.InBounds p := by
  refine h.invariant (fun {i m m'} hm hi hx => ?_) hm
  have hsound := execute_sound p functions i _ (hm.advance hi)
  rw [hx] at hsound
  exact hsound.1

/-- An instruction of a run starts within the bounds of the program, stays within them, and fails
only where it is to blame. -/
theorem Reaches.step_sound {w : World} {n : Nat} {m : Machine} {i : Instruction}
    (h : Reaches p functions n (start p w) m) (hi : p.code[m.pc]? = some i) :
    InBounds p { m with pc := m.pc + 1 } ∧
      match execute p functions i { m with pc := m.pc + 1 } with
      | .ok _ m' => m'.InBounds p
      | .error fault m' => m'.InBounds p ∧ i.Blames p functions fault := by
  have hm := (h.inBounds (start_inBounds p w)).advance hi
  refine ⟨hm, ?_⟩
  have hsound := execute_sound p functions i _ hm
  cases hx : execute p functions i { m with pc := m.pc + 1 } with
  | ok _ m' =>
    rw [hx] at hsound
    exact hsound.1
  | error fault m' =>
    rw [hx] at hsound
    exact hsound

/-- Where a run fails, an instruction that it has come to is to blame. -/
theorem blames_of_failed {w w' : World} {n : Nat} {e : RuntimeError}
    (h : run p functions n (start p w) = .failed e w') :
    ∃ k m i, Reaches p functions k (start p w) m ∧ p.code[m.pc]? = some i ∧
      i.Blames p functions e.fault := by
  obtain ⟨k, m, hreach, i, fault, next, hi, hx, rfl, rfl⟩ := reaches_of_failed h
  have hsound := (hreach.step_sound hi).2
  rw [hx] at hsound
  exact ⟨k, m, i, hreach, hi, hsound.2⟩

end Machine

/-! ## Programs -/

/-- What holds of every run of a program, whatever the natives are. -/
structure Program.Safe (p : Program) : Prop where
  /-- A run stays within the program, its stack and its slots. -/
  bounds : ∀ {functions w n m}, Machine.Reaches p functions n (.start p w) m →
    m.InBounds p ∧ m.stack.size ≤ operandCapacity
  /-- It does so while an instruction is executed, too, and when one has failed; and an instruction
  fails only where it is to blame. -/
  steps : ∀ {functions w n m i}, Machine.Reaches p functions n (.start p w) m →
    p.code[m.pc]? = some i → Machine.InBounds p { m with pc := m.pc + 1 } ∧
      match Machine.execute p functions i { m with pc := m.pc + 1 } with
      | .ok _ next => next.InBounds p
      | .error fault next => next.InBounds p ∧ i.Blames p functions fault
  /-- It breaks off at the method calls whose values no machine word can count. -/
  breaks : ∀ {functions w n m i}, Machine.Reaches p functions n (.start p w) m →
    p.code[m.pc]? = some i →
      ((∃ next, Machine.execute p functions i { m with pc := m.pc + 1 } =
        .error .countOverflow next) ↔ i.Overcounts p)
  /-- A program without such calls never breaks off. -/
  ends : (∀ i ∈ p.code, ¬ i.Overcounts p) →
    ∀ {functions w n e w'}, Machine.run p functions n (.start p w) = .failed e w' →
      e.fault ≠ .countOverflow

/-- Every program is safe, however its code and its tables were made. -/
theorem Program.safe (p : Program) : p.Safe where
  bounds h := ⟨h.inBounds (Machine.start_inBounds p _), Machine.size_le _⟩
  steps h hi := h.step_sound hi
  breaks {functions w n m i} h hi := by
    constructor
    · rintro ⟨next, hx⟩
      have hsound := (h.step_sound hi).2
      rw [hx] at hsound
      exact hsound.2
    · exact fun hover => ⟨_, Machine.execute_overcounts hover _⟩
  ends hnone {functions w n e w'} hrun hfault := by
    obtain ⟨k, m, i, -, hi, hblames⟩ := Machine.blames_of_failed hrun
    rw [hfault] at hblames
    exact hnone i (Array.mem_of_getElem? hi) hblames

/-- A call with as many arguments as a machine word can count. -/
def Program.overcounting : Program :=
  ⟨#[.callMethod 0 (wordLimit - 1)], #[1], .empty, #[], #[.new "m" 0]⟩

/-- The stack is empty, but the run does not get as far as to miss the operands. -/
theorem Program.overcounting_breaks_off :
    Machine.run Program.overcounting .empty 1
        (.start Program.overcounting (.ofOutput .unlimited)) =
      .failed ⟨.countOverflow, 1⟩ (.ofOutput .unlimited) :=
  rfl

end ScriptEngine
