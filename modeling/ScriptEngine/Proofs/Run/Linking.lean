/-
A compiled program is linked to its registry.

A call is compiled to a function that accepts its arguments: a mangled name holds the arity
of its function, and a method is listed under one argument less than its function takes,
which is the receiver (`InStep.accepts_of_resolve`, `InStep.accepts_of_listed`).  So all
calls of a program on the registry that it was compiled against pass as many values as
their functions take, whichever receiver a method call finds.

What else an instruction refers to is there, and what a run needs is on its stack.  So of
the faults of `Instruction.Blames` those that name a bad operand have no cause in such a
program, and the faults of natives are those of their bodies (`Script.compile_linked`).
-/
import ScriptEngine.Proofs.Code.Operands
import ScriptEngine.Proofs.Direct.Instructions
import ScriptEngine.Proofs.Registry.Scoping
import ScriptEngine.Proofs.Run.Discipline
import ScriptEngine.Proofs.Run.Faults

namespace ScriptEngine

/-! ## Arities -/

/-- A function that accepts the number of its arguments runs on them. -/
theorem NativeFunction.call_of_accepts {f : NativeFunction} {args : List Value}
    (h : f.arity.accepts args.length = true) : f.call args = f.body args := by
  unfold call
  cases hf : f.arity with
  | variadic => rfl
  | fixed n =>
    rw [hf] at h
    exact if_pos (of_decide_eq_true h)

/-- A handle is that of a function which accepts a number of arguments. -/
def FunctionRegistry.Accepts (functions : FunctionRegistry) (handle count : Nat) : Prop :=
  ∃ entry, functions.entry? handle = some entry ∧ entry.function.arity.accepts count = true

namespace InStep

variable {r : FunctionRegistry} {done : List Registration} {handle : Nat}

theorem accepts_of_key (h : InStep r done) {q : Registration} {key : FunctionKey} {count : Nat}
    (hq : done[handle]? = some q) (hkey : q.key? = some key)
    (hcount : key.arity.accepts count = true) : r.Accepts handle count := by
  obtain ⟨other, entry, -, hentry, -, -, hfunction⟩ := h.entry hq
  refine ⟨entry, hentry, ?_⟩
  rw [hfunction, Registration.native_arity hkey]
  exact hcount

theorem accepts_of_resolve (h : InStep r done) {name : String} {argc : Nat}
    (hr : r.resolve name argc = .ok (some handle)) : r.Accepts handle argc := by
  obtain ⟨arity, mangled, hcount, hmangle, hindex⟩ := FunctionRegistry.indexOf?_of_resolve hr
  obtain ⟨q, key, hq, hkey, hother⟩ := h.names.mp hindex
  obtain rfl := FunctionKey.mangle_injective hother hmangle
  exact h.accepts_of_key hq hkey hcount

theorem accepts_of_listed (h : InStep r done) {method className : String} {argc : Nat}
    (hl : (className, handle) ∈ r.implementations method argc) : r.Accepts handle (argc + 1) := by
  rw [h.implementations_eq, mem_methodPlaces] at hl
  obtain ⟨q, hq, hmethod⟩ := hl
  exact h.accepts_of_key hq (Registration.key?_of_method? hmethod) (decide_eq_true rfl)

end InStep

/-! ## Instructions -/

/-- The faults that name something which an instruction refers to in vain. -/
def RuntimeFault.isInvalid : RuntimeFault → Bool
  | invalidSlot _ | invalidConstant _ | invalidJump .. | invalidMethodIndex _
  | invalidInstruction _ | invalidFunctionHandle _ | countOverflow => true
  | _ => false

namespace Instruction

variable {p : Program} {r : FunctionRegistry} {done : List Registration} {i : Instruction}

/-- Whatever function a call reaches accepts the values of the call. -/
theorem Valid.accepts {limit handle count : Nat} (h : i.Valid p r limit) (hr : InStep r done)
    (hcalls : i.Calls p handle count) : r.Accepts handle count := by
  cases hcalls with
  | call =>
    obtain ⟨name, hresolve⟩ := h
    exact hr.accepts_of_resolve hresolve
  | method ht hmem =>
    obtain ⟨method, htable⟩ := h
    obtain rfl := Option.some.inj (ht.symm.trans htable)
    exact hr.accepts_of_listed (Compiler.mem_implementations _ _ _ hmem)

theorem Valid.isInvalid_eq_false {fault : RuntimeFault} (h : i.Valid p r p.size)
    (hr : InStep r done) (hpops : i.pops ≤ operandCapacity) (hb : i.Blames p r fault) :
    fault.isInvalid = false := by
  cases fault with
  | invalidSlot slot =>
    obtain ⟨rfl | rfl, hle⟩ := hb
    · exact absurd h (Nat.not_lt_of_le hle)
    · exact absurd h (Nat.not_lt_of_le hle)
  | invalidConstant index =>
    obtain ⟨rfl, hle⟩ := hb
    exact absurd h (Nat.not_lt_of_le hle)
  | invalidJump target size =>
    obtain ⟨htarget, rfl, hlt⟩ := hb
    cases i with
    | jump t | jumpIfFalse t =>
      cases htarget
      exact absurd h (Nat.not_le_of_lt hlt)
    | _ => cases htarget
  | invalidMethodIndex index =>
    obtain ⟨argc, rfl, hle⟩ := hb
    obtain ⟨method, ht⟩ := h
    exact absurd (Array.getElem?_eq_some_iff.mp ht).1 (Nat.not_lt_of_le hle)
  | invalidInstruction name => exact hb.elim
  | invalidFunctionHandle handle =>
    obtain ⟨count, hcalls, hnone⟩ := hb
    obtain ⟨entry, hentry, -⟩ := h.accepts hr hcalls
    rw [hnone] at hentry
    cases hentry
  | countOverflow =>
    obtain ⟨index, argc, rfl, -, hword⟩ := hb
    have hlimit : operandCapacity < wordLimit := by decide
    exact absurd (Nat.le_trans hword hpops) (Nat.not_le_of_lt hlimit)
  | _ => rfl

end Instruction

/-! ## Runs -/

/-- A compiled program has the operands of an instruction on the stack when it comes to it. -/
theorem Program.CompiledFrom.operands {p : Program} {functions natives : FunctionRegistry}
    {body : List Stmt} {out : Listing} (h : p.CompiledFrom functions body out) {w : World} {n : Nat}
    {m : Machine} {i : Instruction} (hm : Machine.Reaches p natives n (.start p w) m)
    (hi : p.code[m.pc]? = some i) : i.pops ≤ m.stack.size := by
  rw [h.arrives hm]
  exact (h.sound hi).1.operands

/-- The function of a handle accepts some values, so that a call of it runs its body on them. -/
def FunctionRegistry.Runs (functions : FunctionRegistry) (handle : Nat) (args : List Value) :
    Prop :=
  ∃ entry, functions.entry? handle = some entry ∧
    entry.function.arity.accepts args.length = true ∧
    entry.function.call args = entry.function.body args

theorem FunctionRegistry.Accepts.runs {functions : FunctionRegistry} {handle : Nat}
    {args : List Value} (h : functions.Accepts handle args.length) : functions.Runs handle args := by
  obtain ⟨entry, hentry, hcount⟩ := h
  exact ⟨entry, hentry, hcount, NativeFunction.call_of_accepts hcount⟩

/-- What a program refers to is there, and its calls are taken. -/
structure Program.Linked (p : Program) (functions : FunctionRegistry) : Prop where
  /-- The operands of every instruction are places of the tables and of the program. -/
  operands : ∀ i ∈ p.code, i.Valid p functions p.size
  /-- Every function that an instruction calls for some receiver accepts the values of the call. -/
  accepts : ∀ i ∈ p.code, ∀ {handle count}, i.Calls p handle count →
    functions.Accepts handle count
  /-- A run that comes to a call has its arguments, and the function runs on them. -/
  calls : ∀ {w n m handle argc}, Machine.Reaches p functions n (.start p w) m →
    p.code[m.pc]? = some (.call handle argc) → ∃ args rest,
      m.stack.popMany argc = .ok (args, rest) ∧ args.length = argc ∧ functions.Runs handle args
  /-- One that comes to a call of a method has a receiver and its arguments, and the method that it
  finds runs on them. -/
  methods : ∀ {w n m index argc}, Machine.Reaches p functions n (.start p w) m →
    p.code[m.pc]? = some (.callMethod index argc) → ∃ t receiver args rest,
      p.methods[index]? = some t ∧ m.stack.popMany (argc + 1) = .ok (receiver :: args, rest) ∧
      args.length = argc ∧ ∀ handle, Machine.dispatch t argc (receiver :: args) = .ok handle →
        functions.Runs handle (receiver :: args)
  /-- No run fails because something is missing that an instruction refers to. -/
  valid : ∀ {w n e w'}, Machine.run p functions n (.start p w) = .failed e w' →
    e.fault.isInvalid = false
  /-- Where a native fails, it was its body that failed. -/
  natives : ∀ {w n e w' name cause}, Machine.run p functions n (.start p w) = .failed e w' →
    e.fault = .native name cause → ∃ handle entry args before after,
      functions.entry? handle = some entry ∧ entry.name = name ∧
      entry.function.arity.accepts args.length = true ∧
      (entry.function.body args).run before = .error cause after

namespace Program.CompiledFrom

variable {p : Program} {r : FunctionRegistry} {done : List Registration} {body : List Stmt}
  {out : Listing}

theorem accepts (h : p.CompiledFrom r body out) (hr : InStep r done) {i : Instruction}
    (hi : i ∈ p.code) {handle count : Nat} (hcalls : i.Calls p handle count) :
    r.Accepts handle count := (h.valid hi).accepts hr hcalls

theorem calls (h : p.CompiledFrom r body out) (hr : InStep r done) {w : World} {n : Nat}
    {m : Machine} {handle argc : Nat} (hm : Machine.Reaches p r n (.start p w) m)
    (hi : p.code[m.pc]? = some (.call handle argc)) : ∃ args rest,
      m.stack.popMany argc = .ok (args, rest) ∧ args.length = argc ∧ r.Runs handle args := by
  obtain ⟨args, rest, hpop, rfl⟩ := Stack.popMany_of_le (h.operands hm hi)
  exact ⟨args, rest, hpop, rfl, (h.accepts hr (Array.mem_of_getElem? hi) .call).runs⟩

theorem methods (h : p.CompiledFrom r body out) (hr : InStep r done) {w : World} {n : Nat}
    {m : Machine} {index argc : Nat} (hm : Machine.Reaches p r n (.start p w) m)
    (hi : p.code[m.pc]? = some (.callMethod index argc)) : ∃ t receiver args rest,
      p.methods[index]? = some t ∧ m.stack.popMany (argc + 1) = .ok (receiver :: args, rest) ∧
      args.length = argc ∧ ∀ handle, Machine.dispatch t argc (receiver :: args) = .ok handle →
        r.Runs handle (receiver :: args) := by
  obtain ⟨vs, rest, hpop, hlength⟩ := Stack.popMany_of_le (h.operands hm hi)
  obtain ⟨method, ht⟩ := h.valid (Array.mem_of_getElem? hi)
  cases vs with
  | nil => cases hlength
  | cons receiver args =>
    obtain rfl := Nat.succ.inj hlength
    refine ⟨_, receiver, args, rest, ht, hpop, rfl, fun handle hdispatch => ?_⟩
    obtain ⟨className, hmem⟩ := Machine.mem_of_dispatch hdispatch
    exact (h.accepts hr (Array.mem_of_getElem? hi) (.method ht hmem)).runs

/-- A failing instruction of a run is to blame for it, and has its operands. -/
theorem blames (h : p.CompiledFrom r body out) {w w' : World} {n : Nat} {e : RuntimeError}
    (hrun : Machine.run p r n (.start p w) = .failed e w') :
    ∃ i ∈ p.code, i.pops ≤ operandCapacity ∧ i.Blames p r e.fault := by
  obtain ⟨k, m, i, hm, hi, hblames⟩ := Machine.blames_of_failed hrun
  exact ⟨i, Array.mem_of_getElem? hi, Nat.le_trans (h.operands hm hi) m.size_le, hblames⟩

theorem linked (h : p.CompiledFrom r body out) (hr : InStep r done) : p.Linked r where
  operands i hi := h.valid hi
  accepts i hi := h.accepts hr hi
  calls := h.calls hr
  methods := h.methods hr
  valid hrun := by
    obtain ⟨i, hi, hpops, hblames⟩ := h.blames hrun
    exact (h.valid hi).isInvalid_eq_false hr hpops hblames
  natives hrun hfault := by
    obtain ⟨i, hi, -, hblames⟩ := h.blames hrun
    rw [hfault] at hblames
    obtain ⟨handle, entry, args, before, after, hcalls, hentry, hname, hfails⟩ := hblames
    obtain ⟨other, hother, hcount⟩ := h.accepts hr hi hcalls
    obtain rfl := Option.some.inj (hentry.symm.trans hother)
    rw [NativeFunction.call_of_accepts hcount] at hfails
    exact ⟨handle, entry, args, before, after, hentry, hname.symm, hcount, hfails⟩

end Program.CompiledFrom

/-- A script is linked to the registry that it is compiled against, whatever was registered there
and whatever was refused. -/
theorem Script.compile_linked {changes : List Registry.Change} {s : Script} {strict : Bool}
    {p : Program} (h : s.compile ⟨(Registry.undergoAll changes).1.functions, strict⟩ = .ok p) :
    p.Linked (Registry.undergoAll changes).1.functions := by
  obtain ⟨out, hout⟩ := compile_translates h
  exact hout.linked (Registry.sound_undergoAll changes).inStep

theorem Script.compile_linked_call :
    let changes := [Registry.Change.add (.function "f" (.typed [.any] .unset fun _ => pure ())),
      .add (.method "A" "m" (.typed [.any] .unset fun _ => pure ()))]
    ∃ p, (Script.parse "f(true).m()").1.compile
        ⟨(Registry.undergoAll changes).1.functions, true⟩ = .ok p ∧
      p.Linked (Registry.undergoAll changes).1.functions ∧
      p.code = #[.constant 0, .call 0 1, .callMethod 0 0] ∧
      p.methods = #[⟨"m", 0, [("A", 1)]⟩] := by
  intro changes
  have hcode : (((Script.parse "f(true).m()").1.compile
      ⟨(Registry.undergoAll changes).1.functions, true⟩).toOption.map
        fun p => (p.code, p.methods)) =
      some (#[.constant 0, .call 0 1, .callMethod 0 0], #[⟨"m", 0, [("A", 1)]⟩]) := by
    decide +kernel
  cases hp : (Script.parse "f(true).m()").1.compile
      ⟨(Registry.undergoAll changes).1.functions, true⟩ with
  | error cause =>
    rw [hp] at hcode
    cases hcode
  | ok p =>
    rw [hp] at hcode
    obtain ⟨hcode, hmethods⟩ := Prod.mk.inj (Option.some.inj hcode)
    exact ⟨p, rfl, compile_linked hp, hcode, hmethods⟩

end ScriptEngine
