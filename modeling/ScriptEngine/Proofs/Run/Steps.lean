/-
Runs step by step.

`Machine.run` goes on for as many steps as it is given and then says where it is.
`Reaches p functions n m m'` is the part of such a run between two machines, and how a
run ends is a property of the last machine alone: there is no instruction left
(`Halts`), or the instruction fails (`Fails`).  The theorems here tie the two together,
so that everything else speaks of steps and never of `run`.
-/
import ScriptEngine.Machine.Run

namespace ScriptEngine
namespace Machine

section
variable (p : Program) (functions : FunctionRegistry)

inductive Reaches : Nat → Machine → Machine → Prop where
  | refl {m} : Reaches 0 m m
  | next {n i m m' m''} : p.code[m.pc]? = some i →
      execute p functions i { m with pc := m.pc + 1 } = .ok () m' →
      Reaches n m' m'' → Reaches (n + 1) m m''

def Halts (m : Machine) : Prop := p.code[m.pc]? = none

def Fails (m : Machine) (e : RuntimeError) (w : World) : Prop :=
  ∃ i fault next, p.code[m.pc]? = some i ∧
    execute p functions i { m with pc := m.pc + 1 } = .error fault next ∧
    e = ⟨fault, p.lineAt m.pc⟩ ∧ w = next.world

end

variable {p : Program} {functions : FunctionRegistry} {m m' m'' : Machine}

theorem Reaches.trans {k n : Nat} (h : Reaches p functions k m m')
    (h' : Reaches p functions n m' m'') : Reaches p functions (k + n) m m'' := by
  induction h with
  | refl =>
    rw [Nat.zero_add]
    exact h'
  | @next k i m m1 m2 hi hx _ ih =>
    rw [Nat.add_right_comm]
    exact .next hi hx (ih h')

theorem Reaches.one {i : Instruction} (hi : p.code[m.pc]? = some i)
    (hx : execute p functions i { m with pc := m.pc + 1 } = .ok () m') :
    Reaches p functions 1 m m' :=
  .next hi hx .refl

/-! ## What a run says -/

theorem run_halts (h : Halts p m) (n : Nat) :
    run p functions n m = .finished m.result m.world := by
  unfold Halts at h
  cases n <;> simp only [run, h]

theorem run_zero {i : Instruction} (hi : p.code[m.pc]? = some i) :
    run p functions 0 m = .running m := by
  simp only [run, hi]

theorem run_next {i : Instruction} (hi : p.code[m.pc]? = some i)
    (hx : execute p functions i { m with pc := m.pc + 1 } = .ok () m') (n : Nat) :
    run p functions (n + 1) m = run p functions n m' := by
  rw [run.eq_1 p functions (n + 1) m]
  simp only [hi, hx]

theorem run_fails {e : RuntimeError} {w : World} (h : Fails p functions m e w) (n : Nat) :
    run p functions (n + 1) m = .failed e w := by
  obtain ⟨i, fault, next, hi, hx, rfl, rfl⟩ := h
  simp only [run, hi, hx]

theorem run_reaches {k : Nat} (h : Reaches p functions k m m') (n : Nat) :
    run p functions (k + n) m = run p functions n m' := by
  induction h with
  | refl => rw [Nat.zero_add]
  | @next k i m m1 m2 hi hx _ ih =>
    rw [Nat.add_right_comm, run_next hi hx]
    exact ih

/-- A machine that comes far enough is still running after fewer steps. -/
theorem run_running {k n : Nat} (h : Reaches p functions k m m') (hn : n < k) :
    ∃ m'', run p functions n m = .running m'' := by
  induction h generalizing n with
  | refl => omega
  | @next k i m m1 m2 hi hx _ ih =>
    cases n with
    | zero => exact ⟨m, run_zero hi⟩
    | succ n =>
      rw [run_next hi hx]
      exact ih (by omega)

/-- How a run ends, or where it is when its steps are used up. -/
theorem run_cases (n : Nat) (m : Machine) : ∃ k m', k ≤ n ∧ Reaches p functions k m m' ∧
    (Halts p m' ∧ run p functions n m = .finished m'.result m'.world ∨
      (k < n ∧ ∃ e w, Fails p functions m' e w ∧ run p functions n m = .failed e w) ∨
      k = n ∧ run p functions n m = .running m') := by
  induction n generalizing m with
  | zero =>
    refine ⟨0, m, Nat.le_refl 0, .refl, ?_⟩
    cases hi : p.code[m.pc]? with
    | none => exact .inl ⟨hi, run_halts hi 0⟩
    | some i => exact .inr (.inr ⟨rfl, run_zero hi⟩)
  | succ n ih =>
    cases hi : p.code[m.pc]? with
    | none => exact ⟨0, m, Nat.zero_le _, .refl, .inl ⟨hi, run_halts hi _⟩⟩
    | some i =>
      cases hx : execute p functions i { m with pc := m.pc + 1 } with
      | ok v m1 =>
        obtain ⟨k, m', hk, hreach, hend⟩ := ih m1
        refine ⟨k + 1, m', Nat.succ_le_succ hk, .next hi hx hreach, ?_⟩
        rw [run_next hi hx]
        rcases hend with hend | ⟨hlt, hend⟩ | ⟨rfl, hend⟩
        · exact .inl hend
        · exact .inr (.inl ⟨Nat.succ_lt_succ hlt, hend⟩)
        · exact .inr (.inr ⟨rfl, hend⟩)
      | error fault next =>
        have hfails : Fails p functions m ⟨fault, p.lineAt m.pc⟩ next.world :=
          ⟨i, fault, next, hi, hx, rfl, rfl⟩
        exact ⟨0, m, Nat.zero_le _, .refl,
          .inr (.inl ⟨Nat.succ_pos n, _, _, hfails, run_fails hfails n⟩)⟩

/-- A run that has ended stays as it is. -/
theorem run_more {n : Nat} (h : ∀ m', run p functions n m ≠ .running m') (j : Nat) :
    run p functions (n + j) m = run p functions n m := by
  obtain ⟨k, m', hk, hreach, ⟨hhalts, hrun⟩ | ⟨hlt, e, w, hfails, hrun⟩ | ⟨-, hrun⟩⟩ :=
    @run_cases p functions n m
  · rw [hrun, show n + j = k + (n + j - k) by omega, run_reaches hreach, run_halts hhalts]
  · rw [hrun, show n + j = k + (n + j - k - 1 + 1) by omega, run_reaches hreach,
      run_fails hfails]
  · exact absurd hrun (h m')

/-- A run has at most one end. -/
theorem run_unique {n k : Nat} (h : ∀ m', run p functions n m ≠ .running m')
    (h' : ∀ m', run p functions k m ≠ .running m') :
    run p functions n m = run p functions k m := by
  rw [← run_more h k, Nat.add_comm, run_more h' n]

theorem reaches_of_failed {n : Nat} {e : RuntimeError} {w : World}
    (h : run p functions n m = .failed e w) :
    ∃ k m', Reaches p functions k m m' ∧ Fails p functions m' e w := by
  obtain ⟨k, m', -, hreach, ⟨-, hrun⟩ | ⟨-, e', w', hfails, hrun⟩ | ⟨-, hrun⟩⟩ :=
    @run_cases p functions n m
  · rw [h] at hrun
    cases hrun
  · rw [h] at hrun
    cases hrun
    exact ⟨k, m', hreach, hfails⟩
  · rw [h] at hrun
    cases hrun

/-! ## Invariants -/

/-- What every step preserves holds of every machine that a run comes to. -/
theorem Reaches.invariant {P : Machine → Prop} {n : Nat}
    (hstep : ∀ {i m m'}, P m → p.code[m.pc]? = some i →
      execute p functions i { m with pc := m.pc + 1 } = .ok () m' → P m')
    (h : Reaches p functions n m m') (hm : P m) : P m' := by
  induction h with
  | refl => exact hm
  | next hi hx _ ih => exact ih (hstep hm hi hx)

end Machine
end ScriptEngine
