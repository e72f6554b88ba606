/-
What each instruction simulates.

There is one theorem for each instruction that an expression is translated to, and one
for each that belongs to statements.  An instruction finds its operands on top of the
stack, the last one first, and leaves its result in their place.
-/
import ScriptEngine.Proofs.Code.Tables
import ScriptEngine.Proofs.Direct.Simulation

namespace ScriptEngine

/-! ## Handles -/

namespace FunctionRegistry

variable {functions : FunctionRegistry} {handle : Nat}

theorem entry?_of_lt (h : handle < functions.entries.size) :
    ∃ entry, functions.entry? handle = some entry :=
  ⟨functions.entries[handle], Array.getElem?_eq_getElem h⟩

theorem entry?_of_indexOf? {mangled : String} (h : functions.indexOf? mangled = some handle) :
    ∃ entry, functions.entry? handle = some entry := by
  obtain ⟨before, after, hsplit, -⟩ := List.lookup_eq_some_iff.mp h
  obtain ⟨entry, hentry, -⟩ := functions.named (mangled, handle) (by simp [hsplit])
  exact ⟨entry, hentry⟩

/-- A call reaches a function that is registered for its number of arguments or for any number. -/
theorem indexOf?_of_resolve {name : String} {argc : Nat}
    (h : functions.resolve name argc = .ok (some handle)) :
    ∃ arity mangled, arity.accepts argc = true ∧
      FunctionKey.mangle ⟨name, arity⟩ = .ok mangled ∧ functions.indexOf? mangled = some handle := by
  unfold resolve at h
  cases hfixed : FunctionKey.mangle ⟨name, .fixed argc⟩ with
  | error e =>
    rw [hfixed] at h
    cases h
  | ok mangled =>
    rw [hfixed] at h
    simp only [bind, Except.bind] at h
    split at h
    · next found hexact =>
      cases h
      exact ⟨.fixed argc, mangled, decide_eq_true rfl, hfixed, hexact⟩
    · cases hany : FunctionKey.mangle ⟨name, .variadic⟩ with
      | error e =>
        rw [hany] at h
        cases h
      | ok mangled =>
        rw [hany] at h
        exact ⟨.variadic, mangled, rfl, hany, Except.ok.inj h⟩

theorem entry?_of_resolve {name : String} {argc : Nat}
    (h : functions.resolve name argc = .ok (some handle)) :
    ∃ entry, functions.entry? handle = some entry := by
  obtain ⟨_, _, -, -, hindex⟩ := indexOf?_of_resolve h
  exact entry?_of_indexOf? hindex

theorem entry?_of_mem_implementations {method className : String} {argc : Nat}
    (h : (className, handle) ∈ functions.implementations method argc) :
    ∃ entry, functions.entry? handle = some entry := by
  unfold implementations at h
  cases hl : functions.methods.lookup ⟨method, argc⟩ with
  | none => simp [hl] at h
  | some items =>
    obtain ⟨before, after, hsplit, -⟩ := List.lookup_eq_some_iff.mp hl
    have hmem : (⟨method, argc⟩, items) ∈ functions.methods := by simp [hsplit]
    exact entry?_of_lt (functions.listed _ hmem (className, handle) (by simpa [hl] using h))

theorem entry?_of_implementation {method : String} {argc : Nat} {receiver : Value}
    (h : Direct.implementation functions method argc receiver = .ok handle) :
    ∃ entry, functions.entry? handle = some entry := by
  cases receiver with
  | object ref =>
    rw [Direct.implementation] at h
    cases hl : (functions.implementations method argc).reverse.lookup ref.className with
    | some found =>
      rw [hl] at h
      cases h
      obtain ⟨before, after, hsplit, -⟩ := List.lookup_eq_some_iff.mp hl
      have hmem : (ref.className, handle) ∈ functions.implementations method argc := by
        rw [← List.mem_reverse, hsplit]
        simp
      exact entry?_of_mem_implementations hmem
    | none =>
      rw [hl] at h
      dsimp only at h
      split at h
      · cases h
      · split at h <;> cases h
  | _ => cases h

end FunctionRegistry

namespace Direct

variable {p : Program} {functions : FunctionRegistry} {m : Machine} {env : Environment}
  {items vs : List Value} {v : Value} {pc line least : Nat}

/-- The machine is at an offset with one more operand. -/
def Pushed (p : Program) (items : List Value) (pc : Nat) (v : Value) (env : Environment)
    (m : Machine) : Prop := Stands p m env (v :: items) pc

theorem Simulates.execute {α : Type} {i : Instruction} {Q : α → Environment → Machine → Prop}
    {r : EStateM.Result Stop Environment α} (h : Stands p m env items pc)
    (hi : p.HasAt pc (i, line))
    (hx : ∀ m, Stands p m env items (pc + 1) →
      Matches line (fun a (_ : Unit) env m => Q a env m) r (Machine.execute p functions i m)) :
    Simulates p functions least m Q r := by
  refine .step (by rw [h.place]; exact hi) (hx _ ⟨h.stack, ?_, h.world, h.size, h.slots⟩)
  show m.pc + 1 = pc + 1
  rw [h.place]

/-- The machine puts what it has computed on the stack, where there is room. -/
theorem Matches.thenPush {r : EStateM.Result Stop Environment Value} {y : Operation Value}
    {Q : Value → Value → Environment → Machine → Prop} (h : Matches line Q r (y m))
    (hroom : items.length < operandCapacity)
    (hQ : ∀ a b env m, Q a b env m → a = b ∧ Stands p m env items pc) :
    Matches line (fun a (_ : Unit) env m => Pushed p items pc a env m) r
      ((y >>= Machine.push) m) := by
  rw [bind_apply]
  cases hy : y m with
  | ok b m' =>
    rw [hy] at h
    cases r with
    | ok a env =>
      obtain ⟨rfl, hm'⟩ := hQ a b env m' h
      obtain ⟨m'', hpush, hm''⟩ := hm'.push_room (v := a) hroom
      dsimp only
      rw [hpush]
      exact hm''
    | error stop env => cases stop <;> exact h.elim
  | error fault m' =>
    rw [hy] at h
    cases r with
    | ok a env => exact h.elim
    | error stop env => cases stop <;> exact h

theorem dispatch_tableOf (functions : FunctionRegistry) (method : String) (argc : Nat)
    (receiver : Value) (args : List Value) :
    Machine.dispatch (Compiler.tableOf functions method argc) argc (receiver :: args) =
      implementation functions method argc receiver := by
  have hname := (Compiler.tableOf_key functions method argc).1
  cases receiver with
  | object ref =>
    rw [Machine.dispatch, implementation, hname, Compiler.handleFor?_tableOf,
      Compiler.soleClass?_tableOf]
    cases (functions.implementations method argc).reverse.lookup ref.className with
    | some handle => rfl
    | none =>
      cases functions.implementations method argc with
      | nil => rfl
      | cons entry known =>
        dsimp only
        by_cases hall : known.all (·.1 = entry.1)
        · rw [if_pos hall, if_pos hall]
        · rw [if_neg hall, if_neg hall]
  | _ => rw [Machine.dispatch, implementation, hname] <;> simp

/-! ## Expressions -/

theorem constant_simulates {index : Nat} {k : Constant} (h : Stands p m env items pc)
    (hi : p.HasAt pc (.constant index, line)) (hk : p.constants.get? index = some k) :
    Simulates p functions least m (Pushed p items (pc + 1))
      (hold (some operandCapacity) items.length line k.toValue env) := by
  refine .execute h hi fun m hm => ?_
  have hrequire : Machine.require (p.constants.get? index) (.invalidConstant index) m =
      .ok k m := by
    rw [hk]
    rfl
  exact .skip hrequire hm.push

theorem load_matches {slot : Nat} {name : Ident} (h : Stands p m env items pc)
    (hs : p.slotNames[slot]? = some name.name) :
    Matches name.location.line (fun a b env' m' => a = b ∧ env' = env ∧ m' = m)
      (readVariable name env) (Machine.load p slot m) := by
  have hrequire : Machine.require m.slots[slot]? (.invalidSlot slot) m =
      .ok (env.values name.name) m := by
    rw [h.slots slot name.name hs]
    rfl
  refine .skip (b := m) rfl (.skip hrequire ?_)
  have hget : (get : Evaluation Environment) env = .ok env env := rfl
  rw [readVariable, bind_apply, hget]
  dsimp only
  cases env.values name.name with
  | unset =>
    refine ⟨?_, h.world⟩
    rw [Program.slotName?, hs, Option.getD_some]
  | _ => exact ⟨rfl, rfl, rfl⟩

theorem load_simulates {slot : Nat} {name : Ident} (h : Stands p m env items pc)
    (hi : p.HasAt pc (.load slot, name.location.line)) (hs : p.slotNames[slot]? = some name.name) :
    Simulates p functions least m (Pushed p items (pc + 1))
      ((readVariable name >>= hold (some operandCapacity) items.length name.location.line)
        env) := by
  refine .execute h hi fun m hm => .bind (load_matches hm hs) fun a b env' m' hab => ?_
  obtain ⟨rfl, rfl, rfl⟩ := hab
  exact hm.push

theorem unary_simulates {op : UnaryOp} (h : Stands p m env (v :: items) pc)
    (hi : p.HasAt pc (.unary op, line)) :
    Simulates p functions least m (Pushed p items (pc + 1))
      (check line (Value.unary op v) env) := by
  refine .execute h hi fun m hm => ?_
  obtain ⟨m', hpop, hm'⟩ := hm.pop
  exact .skip hpop ((Matches.check hm'.world).thenPush hm.room
    fun a b env m ⟨_, hab, henv, hmm⟩ => ⟨hab, by rw [henv, hmm]; exact hm'⟩)

theorem binary_simulates {op : BinaryOp} {left right : Value}
    (h : Stands p m env (right :: left :: items) pc) (hi : p.HasAt pc (.binary op, line)) :
    Simulates p functions least m (Pushed p items (pc + 1))
      (check line (Value.binary env.world.store op left right) env) := by
  refine .execute h hi fun m hm => ?_
  obtain ⟨m', hpop, hm'⟩ := hm.pop
  obtain ⟨m'', hpop', hm''⟩ := hm'.pop
  have hget : (get : Operation Machine) m'' = .ok m'' m'' := rfl
  refine .skip hpop (.skip hpop' (.skip hget ?_))
  rw [hm''.world]
  exact (Matches.check hm''.world).thenPush hm'.room
    fun a b env m ⟨_, hab, henv, hmm⟩ => ⟨hab, by rw [henv, hmm]; exact hm''⟩

theorem invoke_matches {handle : Nat} (h : Stands p m env items pc)
    (he : ∃ entry, functions.entry? handle = some entry) (args : List Value) :
    Matches line (fun a b env m => a = b ∧ Stands p m env items pc)
      (invoke functions handle line args env) (Machine.callFunction functions handle args m) := by
  obtain ⟨entry, he⟩ := he
  obtain ⟨stack, slots, place, world⟩ := m
  obtain rfl : world = env.world := h.world
  unfold invoke Machine.callFunction
  dsimp only
  rw [he]
  dsimp only
  cases (entry.function.call args).run env.world with
  | ok v changed => exact ⟨rfl, h.stack, h.place, rfl, h.size, h.slots⟩
  | error e changed => exact ⟨rfl, rfl⟩

theorem call_simulates {handle argc : Nat} (h : Stands p m env (vs.reverse ++ items) pc)
    (hn : vs.length = argc) (hi : p.HasAt pc (.call handle argc, line))
    (he : ∃ entry, functions.entry? handle = some entry) :
    Simulates p functions least m (Pushed p items (pc + 1))
      ((invoke functions handle line vs >>= hold (some operandCapacity) items.length line) env) := by
  subst hn
  refine .execute h hi fun m hm => ?_
  obtain ⟨m', hpop, hm'⟩ := hm.popMany
  refine .skip hpop (.bind (invoke_matches hm' he vs) fun a b env m hab => ?_)
  obtain ⟨rfl, hm⟩ := hab
  exact hm.push

/-- Where there is room for the result, it is held in any case. -/
theorem call_simulates_room {handle argc : Nat} (h : Stands p m env (vs.reverse ++ items) pc)
    (hn : vs.length = argc) (hi : p.HasAt pc (.call handle argc, line))
    (he : ∃ entry, functions.entry? handle = some entry)
    (hroom : items.length < operandCapacity) :
    Simulates p functions least m (Pushed p items (pc + 1))
      (invoke functions handle line vs env) := by
  subst hn
  refine .execute h hi fun m hm => ?_
  obtain ⟨m', hpop, hm'⟩ := hm.popMany
  exact .skip hpop ((invoke_matches hm' he vs).thenPush hroom fun a b env m hab => hab)

theorem callMethod_matches {method : String} {index : Nat} {receiver : Value}
    (h : Stands p m env ((receiver :: vs).reverse ++ items) pc)
    (ht : p.methods[index]? = some (Compiler.tableOf functions method vs.length)) :
    Matches line (fun a b env m => a = b ∧ Stands p m env items pc)
      (callMethod functions method vs.length line receiver vs env)
      (Machine.callMethod p functions index vs.length m) := by
  have hrequire : Machine.require p.methods[index]? (.invalidMethodIndex index) m =
      .ok (Compiler.tableOf functions method vs.length) m := by
    rw [ht]
    rfl
  -- the operands of a call fit on the stack, so a machine word counts them
  have hword : ¬ wordLimit ≤ vs.length + 1 := by
    have hsize := m.stack.size_le
    rw [h.stack, List.length_append, List.length_reverse, List.length_cons] at hsize
    have : operandCapacity < wordLimit := by decide
    omega
  obtain ⟨m', hpop, hm'⟩ := h.popMany
  refine .skip hrequire ?_
  rw [if_neg hword]
  refine .skip hpop ?_
  rw [dispatch_tableOf]
  refine .bind (Matches.check hm'.world) fun a b env' m'' hab => ?_
  obtain ⟨hhandle, rfl, rfl, rfl⟩ := hab
  exact invoke_matches hm' (FunctionRegistry.entry?_of_implementation hhandle) _

theorem callMethod_simulates {method : String} {index argc : Nat} {receiver : Value}
    (h : Stands p m env (vs.reverse ++ receiver :: items) pc) (hn : vs.length = argc)
    (hi : p.HasAt pc (.callMethod index argc, line))
    (ht : p.methods[index]? = some (Compiler.tableOf functions method argc)) :
    Simulates p functions least m (Pushed p items (pc + 1))
      (callMethod functions method argc line receiver vs env) := by
  subst hn
  have hitems : vs.reverse ++ receiver :: items = (receiver :: vs).reverse ++ items := by simp
  rw [hitems] at h
  refine .execute h hi fun m hm => (callMethod_matches hm ht).thenPush ?_ fun a b env m hab => hab
  have hsize := m.stack.size_le
  rw [hm.stack, List.length_append, List.length_reverse, List.length_cons] at hsize
  omega

/-! ## Statements -/

theorem pop_simulates {α : Type} {a : α} {Q : α → Environment → Machine → Prop}
    (h : Stands p m env (v :: items) pc) (hi : p.HasAt pc (.pop, line))
    (hQ : ∀ m, Stands p m env items (pc + 1) → Q a env m) :
    Simulates p functions least m Q (.ok a env) := by
  refine .execute h hi fun m hm => ?_
  obtain ⟨m', hpop, hm'⟩ := hm.pop
  exact .skip hpop (hQ m' hm')

/-- Another variable has another slot, so setting a slot sets one variable. -/
theorem store_simulates {α : Type} {a : α} {Q : α → Environment → Machine → Prop} {slot : Nat}
    {name : String} (h : Stands p m env (v :: items) pc) (hi : p.HasAt pc (.store slot, line))
    (hs : p.slotNames[slot]? = some name) (hnodup : p.slotNames.toList.Nodup)
    (hQ : ∀ m, Stands p m (env.assign name v) items (pc + 1) → Q a (env.assign name v) m) :
    Simulates p functions least m Q (.ok a (env.assign name v)) := by
  refine .execute h hi fun m hm => ?_
  obtain ⟨m', hpop, hm'⟩ := hm.pop
  refine .skip hpop ?_
  have hslot : slot < m'.slots.size := by
    rw [hm'.size]
    exact (Array.getElem?_eq_some_iff.mp hs).1
  have hstore : Machine.store slot v m' =
      .ok () { m' with slots := m'.slots.setIfInBounds slot v } := by
    show (if slot < m'.slots.size then _ else _ : Operation Unit) m' = _
    rw [if_pos hslot]
    rfl
  rw [hstore]
  refine hQ _ ⟨hm'.stack, hm'.place, hm'.world, ?_, fun other name' hother => ?_⟩
  · rw [← hm'.size]
    exact Array.size_setIfInBounds
  · show (m'.slots.setIfInBounds slot v)[other]? = some (if name' = name then v else _)
    by_cases heq : other = slot
    · subst heq
      rw [hs] at hother
      cases hother
      rw [if_pos rfl, Array.getElem?_setIfInBounds_self_of_lt hslot]
    · have hne : name' ≠ name := by
        rintro rfl
        rw [← Array.getElem?_toList] at hs hother
        have hlt := (List.getElem?_eq_some_iff.mp hother).1
        exact heq ((List.getElem?_inj hlt hnodup).mp (hother.trans hs.symm))
      rw [if_neg hne, Array.getElem?_setIfInBounds_ne (Ne.symm heq)]
      exact hm'.slots other name' hother

theorem jump_stands {t : Nat} (h : Stands p m env items pc) (ht : t ≤ p.size) :
    ∃ m', Machine.jump p t m = .ok () m' ∧ Stands p m' env items t := by
  rw [Machine.jump, if_pos ht]
  exact ⟨_, rfl, h.stack, rfl, h.world, h.size, h.slots⟩

theorem jump_reaches {t : Nat} (h : Stands p m env items pc) (hi : p.HasAt pc (.jump t, line))
    (ht : t ≤ p.size) : ∃ m', Machine.Reaches p functions 1 m m' ∧ Stands p m' env items t := by
  obtain ⟨m', hjump, hm'⟩ := jump_stands
    (⟨h.stack, rfl, h.world, h.size, h.slots⟩ :
      Stands p { m with pc := m.pc + 1 } env items (m.pc + 1)) ht
  have hcode : p.code[m.pc]? = some (.jump t) := by
    rw [h.place]
    exact hi.1
  exact ⟨m', .one hcode hjump, hm'⟩

theorem jumpIfFalse_simulates {t : Nat} (h : Stands p m env (v :: items) pc)
    (hi : p.HasAt pc (.jumpIfFalse t, line)) (ht : t ≤ p.size) :
    Simulates p functions least m
      (fun b env m => Stands p m env items (if b then pc + 1 else t))
      (check line v.condition env) := by
  refine .execute h hi fun m hm => ?_
  obtain ⟨m', hpop, hm'⟩ := hm.pop
  refine .skip hpop ?_
  cases hv : v.condition with
  | error fault => exact ⟨rfl, hm'.world⟩
  | ok b =>
    refine .skip (b := b) rfl ?_
    cases b with
    | true => exact hm'
    | false =>
      obtain ⟨m'', hjump, hm''⟩ := jump_stands hm' ht
      show Matches line _ _ (Machine.jump p t m')
      rw [hjump]
      exact hm''

end Direct
end ScriptEngine
