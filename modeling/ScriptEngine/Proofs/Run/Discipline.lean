/-
The depth of the stack is fixed at every instruction.

A compiled program keeps to the depths of its script in every run, whatever the natives
do and however often its loops repeat, and even if the run has other natives than the
compiler knew (`Script.compile_disciplined`).  So it never lacks an operand, and its
stack is full only where the statement evaluates an expression that demands more than
the stack can hold.  A loop tests its condition where its own code begins, so the empty
stack at every statement is also that at every pass.
-/
import ScriptEngine.Parser.Grammar
import ScriptEngine.Proofs.Code.Balance
import ScriptEngine.Proofs.Code.Compiled
import ScriptEngine.Proofs.Run.Steps

namespace ScriptEngine

structure Program.Disciplined (p : Program) (body : List Stmt) (depth : Nat → Nat) : Prop where
  /-- Every statement begins with an empty stack, those in blocks too. -/
  statements : ∀ site ∈ scriptSites 0 body, depth site.offset = 0
  /-- The script ends with the value of its last expression, if that is its last statement. -/
  finish : ∀ pc, p.size ≤ pc → depth pc = leftover body
  arrives : ∀ {functions w n m}, Machine.Reaches p functions n (.start p w) m →
    m.stack.size = depth m.pc
  no_underflow : ∀ {functions w n e w'}, Machine.run p functions n (.start p w) = .failed e w' →
    e.fault ≠ .stackUnderflow
  overflow : ∀ {functions w n m e w' c}, Machine.Reaches p functions n (.start p w) m →
    Machine.Fails p functions m e w' → e.fault = .stackOverflow c →
      ∃ site ∈ scriptSites 0 body, site.Evaluates m.pc ∧
        operandCapacity < site.statement.demand
  no_overflow : (∀ site ∈ scriptSites 0 body, site.statement.demand ≤ operandCapacity) →
    ∀ {functions w n e w' c}, Machine.run p functions n (.start p w) = .failed e w' →
      e.fault ≠ .stackOverflow c

theorem depthAt_agrees (body : List Stmt) :
    Agrees (depthAt body) 0 (scriptDepths body ++ [leftover body]) := by
  intro k d hk
  rw [Nat.zero_add, depthAt]
  by_cases hlt : k < (scriptDepths body).length
  · rw [List.getElem?_append_left hlt] at hk
    rw [hk]
    rfl
  · rw [List.getElem?_append_right (by omega)] at hk
    have hlen := (List.getElem?_eq_some_iff.mp hk).1
    rw [List.length_singleton] at hlen
    rw [show k - (scriptDepths body).length = 0 by omega] at hk
    cases hk
    rw [List.getElem?_eq_none (by omega)]
    rfl

theorem scriptDepths_length {p : Program} {functions : FunctionRegistry} {body : List Stmt}
    {start : Nat} {out : Listing} (h : Translation.Statements p functions start body out) :
    (scriptDepths body).length = out.length := by
  induction h with
  | nil => rfl
  | cons hs _ ih =>
    rw [scriptDepths, List.length_append, List.length_append, ih, Stmt.depths_length,
      Translation.statement_length _ _ hs]

namespace Program.CompiledFrom

variable {p : Program} {functions : FunctionRegistry} {body : List Stmt} {out : Listing}

theorem balanced (h : p.CompiledFrom functions body out) :
    Balanced (depthAt body) (scriptSites 0 body) 0 out :=
  Translation.statements_balanced h.translation (depthAt_agrees body)

/-- Every instruction of the program is sound where it stands. -/
theorem sound (h : p.CompiledFrom functions body out) {pc : Nat} {i : Instruction}
    (hi : p.code[pc]? = some i) :
    Allows (depthAt body) pc i ∧ ∀ n, n + i.pops < depthAt body pc + i.pushes →
      ∃ site ∈ scriptSites 0 body, site.Evaluates pc ∧ n < site.statement.demand := by
  rw [← Array.getElem?_toList, h.code, List.getElem?_map, Option.map_eq_some_iff] at hi
  obtain ⟨⟨i', line⟩, hentry, rfl⟩ := hi
  have hsound := h.balanced.sound pc (i', line) hentry
  rw [Nat.zero_add] at hsound
  exact ⟨hsound.allows, hsound.room⟩

/-- A step goes from a machine of the right depth to another one. -/
theorem step (h : p.CompiledFrom functions body out) {natives : FunctionRegistry}
    {i : Instruction} {m m' : Machine} (hm : m.stack.size = depthAt body m.pc)
    (hi : p.code[m.pc]? = some i)
    (hx : Machine.execute p natives i { m with pc := m.pc + 1 } = .ok () m') :
    m'.stack.size = depthAt body m'.pc := by
  obtain ⟨⟨_, hnext, htarget⟩, _⟩ := h.sound hi
  have heffect := Machine.execute_effect p natives i { m with pc := m.pc + 1 }
  rw [hx] at heffect
  obtain ⟨hsize, _, hpc⟩ := heffect
  replace hsize : m'.stack.size + i.pops = m.stack.size + i.pushes := hsize
  -- the run goes on behind the instruction or at its target, and the depths are right at both
  rcases hpc with hpc | hpc
  · replace hpc : m'.pc = m.pc + 1 := hpc
    rw [hpc]
    omega
  · have := htarget m'.pc hpc
    omega

theorem arrives (h : p.CompiledFrom functions body out) {natives : FunctionRegistry}
    {w : World} {n : Nat} {m : Machine} (hr : Machine.Reaches p natives n (.start p w) m) :
    m.stack.size = depthAt body m.pc := by
  refine hr.invariant (fun hm hi hx => h.step hm hi hx) ?_
  have hstart : depthAt body 0 = 0 := by
    refine (depthAt_agrees body).start ?_
    cases body with
    | nil => rfl
    | cons s rest =>
      rw [scriptDepths, List.append_assoc]
      exact s.depths_head _ _
  exact hstart.symm

theorem no_underflow (h : p.CompiledFrom functions body out) {natives : FunctionRegistry}
    {m : Machine} {e : RuntimeError} {w : World} (hm : m.stack.size = depthAt body m.pc)
    (hf : Machine.Fails p natives m e w) : e.fault ≠ .stackUnderflow := by
  obtain ⟨i, fault, next, hi, hx, rfl, rfl⟩ := hf
  obtain ⟨⟨hoperands, _, _⟩, _⟩ := h.sound hi
  have heffect := Machine.execute_effect p natives i { m with pc := m.pc + 1 }
  rw [hx] at heffect
  intro hfault
  have hlack : m.stack.size < i.pops := heffect.1 hfault
  omega

theorem overflow (h : p.CompiledFrom functions body out) {natives : FunctionRegistry}
    {m : Machine} {e : RuntimeError} {w : World} {c : Nat}
    (hm : m.stack.size = depthAt body m.pc) (hf : Machine.Fails p natives m e w)
    (hc : e.fault = .stackOverflow c) :
    ∃ site ∈ scriptSites 0 body, site.Evaluates m.pc ∧
      operandCapacity < site.statement.demand := by
  obtain ⟨i, fault, next, hi, hx, rfl, rfl⟩ := hf
  obtain ⟨_, hroom⟩ := h.sound hi
  have heffect := Machine.execute_effect p natives i { m with pc := m.pc + 1 }
  rw [hx] at heffect
  have hfull : operandCapacity + i.pops < m.stack.size + i.pushes := (heffect.2 c hc).2
  exact hroom operandCapacity (by rw [← hm]; exact hfull)

end Program.CompiledFrom

theorem Script.compile_disciplined {s : Script} {input : CompilerInput} {p : Program}
    (h : s.compile input = .ok p) :
    (∀ site ∈ scriptSites 0 s.statements, site.Located p input.functions) ∧
      ∃ depth, p.Disciplined s.statements depth := by
  obtain ⟨out, hout⟩ := compile_translates h
  refine ⟨Translation.statements_located hout.translation hout.hasAt,
    depthAt s.statements, hout.balanced.empty, ?_, hout.arrives, ?_, ?_, ?_⟩
  · intro pc hpc
    rw [hout.size, ← scriptDepths_length hout.translation] at hpc
    rw [depthAt, List.getElem?_eq_none hpc]
    rfl
  · intro natives w n e w' hrun
    obtain ⟨k, m, hreach, hfails⟩ := Machine.reaches_of_failed hrun
    exact hout.no_underflow (hout.arrives hreach) hfails
  · intro natives w n m e w' c hreach hfails hc
    exact hout.overflow (hout.arrives hreach) hfails hc
  · intro hdemand natives w n e w' c hrun hc
    obtain ⟨k, m, hreach, hfails⟩ := Machine.reaches_of_failed hrun
    obtain ⟨site, hsite, _, hlarge⟩ := hout.overflow (hout.arrives hreach) hfails hc
    have := hdemand site hsite
    omega

theorem Script.compile_disciplined_loop :
    ∃ p, (Script.parse "done = false while (not done) done = true end done").1.compile
        ⟨.empty, true⟩ = .ok p ∧
      ∃ depth, p.Disciplined
        (Script.parse "done = false while (not done) done = true end done").1.statements depth := by
  cases h : (Script.parse "done = false while (not done) done = true end done").1.compile
      ⟨.empty, true⟩ with
  | ok p => exact ⟨p, rfl, (compile_disciplined h).2⟩
  | error e =>
    have hok : ((Script.parse "done = false while (not done) done = true end done").1.compile
        ⟨.empty, true⟩).isOk = true := by decide +kernel
    rw [h] at hok
    cases hok

end ScriptEngine
