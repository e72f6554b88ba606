/-
Scripts without loops halt.

Where every jump goes forward, each step takes the run further on in the code
(`Program.Forward.step`), so no instruction is executed twice and the run is over after
as many steps as there are instructions.  In a compiled program the only jumps that do
not go forward are those that end loops, one for each loop (`Script.compile_structured`).
-/
import ScriptEngine.Parser.Grammar
import ScriptEngine.Proofs.Code.Jumps
import ScriptEngine.Proofs.Run.Steps

namespace ScriptEngine

open Machine

/-! ## Programs that only go forward -/

def Program.Forward (p : Program) : Prop := ∀ pc t, p.JumpsTo pc t → pc < t

namespace Program.Forward

variable {p : Program} {natives : FunctionRegistry} {m m' : Machine} {n : Nat}

theorem step (h : p.Forward) {i : Instruction} (hi : p.code[m.pc]? = some i)
    (hx : execute p natives i { m with pc := m.pc + 1 } = .ok () m') : m.pc < m'.pc := by
  have heffect := execute_effect p natives i { m with pc := m.pc + 1 }
  rw [hx] at heffect
  rcases heffect.2.2 with hpc | htarget
  · exact Nat.lt_of_lt_of_eq (Nat.lt_succ_self m.pc) hpc.symm
  · exact h _ _ ⟨i, hi, htarget⟩

theorem reaches (h : p.Forward) (hr : Reaches p natives n m m') : m.pc + n ≤ m'.pc := by
  induction hr with
  | refl => exact Nat.le_refl _
  | next hi hx _ ih =>
    have := h.step hi hx
    omega

/-- There are no more steps than instructions ahead. -/
theorem ends (h : p.Forward) (natives : FunctionRegistry) (m : Machine) :
    ∀ m', run p natives p.size m ≠ .running m' := by
  intro m' hrun
  obtain ⟨k, last, -, hreach, ⟨-, hend⟩ | ⟨-, e, w, -, hend⟩ | ⟨rfl, hend⟩⟩ :=
    @run_cases p natives p.size m
  · rw [hrun] at hend
    cases hend
  · rw [hrun] at hend
    cases hend
  · have hpc := h.reaches hreach
    have hhalts : Halts p last := Array.getElem?_eq_none (Nat.le_trans (Nat.le_add_left _ _) hpc)
    have hover := run_reaches hreach 0
    rw [Nat.add_zero, hend, run_halts hhalts] at hover
    cases hover

end Program.Forward

/-! ## Compiled programs -/

structure Program.Structured (p : Program) (functions : FunctionRegistry) (body : List Stmt) :
    Prop where
  /-- Different statements begin at different instructions, in the order of the script. -/
  places : (scriptSites 0 body).Pairwise fun a b => a.offset < b.offset
  /-- Every statement with blocks has its jumps, each with its target. -/
  wired : ∀ site ∈ scriptSites 0 body, site.Wired p functions
  /-- There are no other jumps than those. -/
  owned : ∀ pc i, p.code[pc]? = some i → i.target? ≠ none →
    ∃ site ∈ scriptSites 0 body, (pc, i) ∈ site.jumps
  inside : ∀ pc t, p.JumpsTo pc t → t ≤ p.size
  /-- No target is missing, since no program is as long as the greatest machine word. -/
  patched : p.size < Label.placeholder → ∀ pc t, p.JumpsTo pc t → t ≠ Label.placeholder
  /-- A jump that does not go forward is the end of exactly one loop. -/
  backward : ∀ pc t, p.JumpsTo pc t → t ≤ pc →
    ∃ site ∈ scriptSites 0 body, site.Closes pc ∧ t = site.offset ∧
      ∀ other ∈ scriptSites 0 body, other.Closes pc → other = site
  /-- Without a loop the run is over after at most as many steps as there are instructions, and
  never comes back to an instruction. -/
  halts : (∀ site ∈ scriptSites 0 body, ¬ site.statement.IsLoop) → ∀ natives w,
    (∀ m, run p natives p.size (.start p w) ≠ .running m) ∧
      ∀ n k m m', Reaches p natives n (.start p w) m → Reaches p natives (k + 1) m m' →
        m.pc < m'.pc

theorem Program.CompiledFrom.forward {p : Program} {functions : FunctionRegistry}
    {body : List Stmt} {out : Listing} (h : p.CompiledFrom functions body out)
    (hloops : ∀ site ∈ scriptSites 0 body, ¬ site.statement.IsLoop) : p.Forward := by
  intro pc t hj
  rcases h.forward_or_closes hj with hlt | ⟨site, hsite, hclose⟩
  · exact hlt
  · exact absurd hclose.1 (hloops site hsite)

theorem Script.compile_structured {s : Script} {input : CompilerInput} {p : Program}
    (h : s.compile input = .ok p) : p.Structured input.functions s.statements := by
  obtain ⟨out, hout⟩ := compile_translates h
  obtain ⟨bound, -, hordered⟩ := scriptSites_ordered s.statements 0
  refine ⟨hordered.increasing, hout.wired, ?_, fun _ _ => hout.inside, ?_,
    fun _ _ => hout.closes_unique, ?_⟩
  · intro pc i hi htarget
    obtain ⟨t, ht⟩ := Option.ne_none_iff_exists'.mp htarget
    exact hout.routed hi ht
  · intro hsize pc t hj
    exact Nat.ne_of_lt (Nat.lt_of_le_of_lt (hout.inside hj) hsize)
  · intro hloops natives w
    have hforward := hout.forward hloops
    refine ⟨hforward.ends natives _, fun n k m m' _ hmore => ?_⟩
    have := hforward.reaches hmore
    omega

theorem Script.compile_structured_nested :
    ∃ p, (Script.parse "while (true) if (true) x = 1 else x = 2 end end").1.compile
        ⟨.empty, true⟩ = .ok p ∧
      p.Structured .empty
        (Script.parse "while (true) if (true) x = 1 else x = 2 end end").1.statements := by
  cases h : (Script.parse "while (true) if (true) x = 1 else x = 2 end end").1.compile
      ⟨.empty, true⟩ with
  | ok p => exact ⟨p, rfl, compile_structured h⟩
  | error e =>
    have hok : ((Script.parse "while (true) if (true) x = 1 else x = 2 end end").1.compile
        ⟨.empty, true⟩).isOk = true := by decide +kernel
    rw [h] at hok
    cases hok

end ScriptEngine
