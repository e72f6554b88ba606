/-
A run does not see what was printed before it.

An action offers texts to the output and has no request that looks at it.  So where the
output collects everything, what an action does behind a text is what it does without that
text (`Action.run_behind`), and the same is true of an instruction and of a run.  A device that
the output is repeated on may fail all the same, and it may fail in view of what was sent to it
before the run; so what counts of it is how it answers from now on (`Device.fresh`).  Whether it
fails or not, the output grows, and never loses a text.

`Parallel before x y` compares two operations: `y` does behind the past `before` what `x`
does without it.  The two may have different registries, as long as these have the same
functions at the handles that the program refers to.
-/
import ScriptEngine.Proofs.Native.Writes
import ScriptEngine.Proofs.Run.Steps
import ScriptEngine.Proofs.Sequence

namespace ScriptEngine

/-! ## States behind a past -/

section
variable {ε σ τ α : Type}

def withState (f : σ → τ) : EStateM.Result ε σ α → EStateM.Result ε τ α
  | .ok a s => .ok a (f s)
  | .error e s => .error e (f s)

def stateOf : EStateM.Result ε σ α → σ
  | .ok _ s => s
  | .error _ s => s

end

/-- The device as one that nothing was sent to.  It answers as the device does from now on. -/
def Device.fresh (d : Device) : Device := ⟨[], fun sent => d.takes (d.sent ++ sent)⟩

/-- What was sent to a device that never fails does not matter. -/
example (sent : List String) : ({ Device.reliable with sent }).fresh = Device.reliable := rfl

/-- What has been before a run: the text that was printed, and the device that it is repeated on. -/
structure Past where
  text : String
  device : Device

/-- The world with a past before all that it has printed. -/
def World.behind (before : Past) (w : World) : World :=
  { w with
    output := { w.output with
      text := before.text ++ w.output.text
      echo := w.output.echo.map fun d =>
        { before.device with sent := before.device.sent ++ d.sent } } }

/-- The output collects every text, and is repeated, if at all, on the device of the past as one
that nothing was sent to before. -/
structure World.Fits (before : Past) (w : World) : Prop where
  collects : w.Collects
  device : ∀ d, w.output.echo = some d → d.takes = before.device.fresh.takes

def Machine.behind (before : Past) (m : Machine) : Machine :=
  { m with world := m.world.behind before }

/-- The world in which a run has ended, or in which it goes on. -/
def Machine.Outcome.world : Machine.Outcome → World
  | finished _ w => w
  | failed _ w => w
  | running m => m.world

def Machine.Outcome.behind (before : Past) : Machine.Outcome → Machine.Outcome
  | finished v w => finished v (w.behind before)
  | failed e w => failed e (w.behind before)
  | running m => running (m.behind before)

theorem World.append_behind (before : Past) (w : World) (pieces : List String) :
    (w.behind before).append pieces = (w.append pieces).behind before := by
  simp [append, behind, String.append_assoc, Function.comp_def]

theorem World.Grows.fits {before : Past} {w w' : World} (h : w.Grows w') (hw : w.Fits before) :
    w'.Fits before := by
  refine ⟨h.collects hw.collects, fun d hd => ?_⟩
  obtain ⟨pieces, hpieces⟩ := h
  rw [hpieces] at hd
  obtain ⟨d', hd', rfl⟩ := Option.map_eq_some_iff.mp hd
  exact hw.device d' hd'

/-- A device answers behind its past as it does without it. -/
theorem World.Fits.answer {before : Past} {w : World} (h : w.Fits before) (piece : String) :
    ((w.behind before).output.echo.all fun d => (d.send piece).1) =
      w.output.echo.all fun d => (d.send piece).1 := by
  rw [behind]
  cases hecho : w.output.echo with
  | none => rfl
  | some d =>
    have htakes : d.takes d.sent piece = before.device.takes (before.device.sent ++ d.sent) piece :=
      congrFun (congrFun (h.device d hecho) d.sent) piece
    exact htakes.symm

theorem Action.run_behind {α : Type} (a : Action α) (before : Past) {w : World}
    (h : w.Fits before) :
    a.run (w.behind before) = withState (World.behind before) (a.run w) ∧
      w.Grows (stateOf (a.run w)) := by
  induction a generalizing w with
  | done r => exact ⟨rfl, .refl w⟩
  | fail e => exact ⟨rfl, .refl w⟩
  | offer piece next ih =>
    have hpiece : w.Grows (w.append [piece]) := ⟨[piece], rfl⟩
    have hbehind : (w.behind before).Accepts piece := h.collects _ _
    rw [run_offer_accepted hbehind, run_offer_accepted (h.collects _ _), World.append_behind,
      h.answer]
    obtain ⟨hrun, hnext⟩ := ih (w.output.echo.all fun d => (d.send piece).1) (hpiece.fits h)
    exact ⟨hrun, hpiece.trans hnext⟩
  | look next ih => exact ih w.store h
  | change f next ih => exact ih (w := { w with store := f w.store }) ⟨h.collects, h.device⟩

namespace Machine

/-! ## Operations -/

/-- The second operation does behind a past what the first one does without it, and the output
grows. -/
def Parallel {α : Type} (before : Past) (x y : Operation α) : Prop :=
  ∀ m, m.world.Fits before →
    y (m.behind before) = withState (behind before) (x m) ∧ m.world.Grows (stateOf (x m)).world

namespace Parallel

variable {before : Past} {α β : Type}

theorem bind {x y : Operation α} {f g : α → Operation β} (hx : Parallel before x y)
    (hf : ∀ a, Parallel before (f a) (g a)) : Parallel before (x >>= f) (y >>= g) := by
  intro m hm
  obtain ⟨hy, hgrows⟩ := hx m hm
  rw [bind_apply, bind_apply, hy]
  cases hr : x m with
  | ok a next =>
    rw [hr] at hgrows
    obtain ⟨hz, hmore⟩ := hf a next (hgrows.fits hm)
    exact ⟨hz, hgrows.trans hmore⟩
  | error e next =>
    rw [hr] at hgrows
    exact ⟨rfl, hgrows⟩

/-- Operations that look at the machine see the same but for the past. -/
theorem get_bind {f g : Machine → Operation β}
    (h : ∀ m, Parallel before (f m) (g (m.behind before))) :
    Parallel before (get >>= f) (get >>= g) := fun m hm => h m m hm

theorem pure (a : α) : Parallel before (pure a) (pure a) := fun _ _ => ⟨rfl, .refl _⟩

theorem throw (fault : RuntimeFault) :
    Parallel before (throw fault : Operation α) (throw fault) := fun _ _ => ⟨rfl, .refl _⟩

theorem push (v : Value) : Parallel before (push v) (push v) := by
  intro m hm
  unfold Machine.push behind
  cases m.stack.push v <;> exact ⟨rfl, .refl _⟩

theorem pop : Parallel before pop pop := by
  intro m hm
  unfold Machine.pop behind
  cases m.stack.pop <;> exact ⟨rfl, .refl _⟩

theorem popMany (count : Nat) : Parallel before (popMany count) (popMany count) := by
  intro m hm
  unfold Machine.popMany behind
  cases m.stack.popMany count <;> exact ⟨rfl, .refl _⟩

theorem require_bind {x : Option α} {fault : RuntimeFault} {f g : α → Operation β}
    (h : ∀ a, x = some a → Parallel before (f a) (g a)) :
    Parallel before (require x fault >>= f) (require x fault >>= g) := by
  intro m hm
  cases x with
  | some a => exact h a rfl m hm
  | none => exact ⟨rfl, .refl _⟩

theorem lift_bind {x : Except RuntimeFault α} {f g : α → Operation β}
    (h : ∀ a, x = .ok a → Parallel before (f a) (g a)) :
    Parallel before (lift x >>= f) (lift x >>= g) := by
  intro m hm
  cases x with
  | ok a => exact h a rfl m hm
  | error fault => exact ⟨rfl, .refl _⟩

theorem load (p : Program) (slot : Nat) : Parallel before (load p slot) (load p slot) := by
  refine get_bind fun m => ?_
  refine require_bind (x := m.slots[slot]?) fun v _ => ?_
  cases v with
  | unset => exact throw _
  | _ => exact pure _

theorem store (slot : Nat) (v : Value) : Parallel before (store slot v) (store slot v) := by
  refine get_bind fun m => ?_
  show Parallel before (if slot < m.slots.size then _ else _) (if slot < m.slots.size then _ else _)
  split
  · exact fun _ _ => ⟨rfl, .refl _⟩
  · exact throw _

theorem jump (p : Program) (target : Nat) : Parallel before (jump p target) (jump p target) := by
  unfold Machine.jump
  split
  · exact fun _ _ => ⟨rfl, .refl _⟩
  · exact throw _

theorem callFunction {functions functions' : FunctionRegistry} {handle : Nat}
    (h : functions.entry? handle = functions'.entry? handle) (args : List Value) :
    Parallel before (callFunction functions handle args) (callFunction functions' handle args) := by
  intro m hm
  unfold Machine.callFunction
  rw [h]
  cases functions'.entry? handle with
  | none => exact ⟨rfl, .refl _⟩
  | some entry =>
    obtain ⟨hrun, hgrows⟩ := (entry.function.call args).run_behind before hm
    dsimp only [behind]
    rw [hrun]
    cases hr : (entry.function.call args).run m.world <;>
      · rw [hr] at hgrows
        exact ⟨rfl, hgrows⟩

end Parallel

end Machine

/-! ## Programs -/

/-- The handles in the code of a program and in its method tables. -/
inductive Program.Refers (p : Program) (handle : Nat) : Prop where
  | call {argc} : .call handle argc ∈ p.code → Refers p handle
  | table {t className} : t ∈ p.methods → (className, handle) ∈ t.classes → Refers p handle

/-- Two registries have the same functions at the handles of a program. -/
def Program.SameNatives (p : Program) (functions functions' : FunctionRegistry) : Prop :=
  ∀ handle, p.Refers handle → functions.entry? handle = functions'.entry? handle

namespace Machine

variable {before : Past} {p : Program} {functions functions' : FunctionRegistry}

/-- The handle that a call of a method reaches is one of its table. -/
theorem mem_of_dispatch {t : MethodTable} {argc handle : Nat} {args : List Value}
    (h : dispatch t argc args = .ok handle) : ∃ className, (className, handle) ∈ t.classes := by
  cases args with
  | nil => cases h
  | cons receiver args =>
    cases receiver with
    | object ref =>
      rw [dispatch] at h
      cases hfound : t.handleFor? ref.className with
      | some found =>
        rw [hfound] at h
        cases h
        obtain ⟨front, back, hsplit, -⟩ := List.lookup_eq_some_iff.mp hfound
        exact ⟨ref.className, by simp [hsplit]⟩
      | none =>
        rw [hfound] at h
        dsimp only at h
        split at h <;> cases h
    | _ => cases h

theorem callMethod_parallel (h : p.SameNatives functions functions') (method argc : Nat) :
    Parallel before (callMethod p functions method argc) (callMethod p functions' method argc) := by
  refine .require_bind fun t ht => ?_
  have hcall : Parallel before
      (do
        let args ← popMany (argc + 1)
        let handle ← lift (dispatch t argc args)
        callFunction functions handle args)
      (do
        let args ← popMany (argc + 1)
        let handle ← lift (dispatch t argc args)
        callFunction functions' handle args) := by
    refine .bind (.popMany _) fun args => .lift_bind fun handle hhandle => ?_
    obtain ⟨className, hmem⟩ := mem_of_dispatch hhandle
    exact .callFunction (h handle (.table (Array.mem_of_getElem? ht) hmem)) args
  split
  · exact .throw _
  · exact hcall

/-- Every instruction of a program does the same behind a past and without it. -/
theorem execute_parallel (h : p.SameNatives functions functions') {i : Instruction}
    (hi : i ∈ p.code) : Parallel before (execute p functions i) (execute p functions' i) := by
  cases i with
  | constant index => exact .require_bind fun c _ => .push c.toValue
  | load slot => exact .bind (.load p slot) fun v => .push v
  | store slot => exact .bind .pop fun v => .store slot v
  | pop => exact .bind .pop fun v => .pure ()
  | unary op => exact .bind .pop fun v => .lift_bind fun r _ => .push r
  | binary op =>
    refine .bind .pop fun right => .bind .pop fun left => .get_bind fun m => ?_
    exact .lift_bind (x := Value.binary m.world.store op left right) fun r _ => .push r
  | jump target => exact .jump p target
  | jumpIfFalse target =>
    refine .bind .pop fun v => .lift_bind fun b _ => ?_
    cases b with
    | true => exact .pure ()
    | false => exact .jump p target
  | call handle argc =>
    refine .bind (.popMany argc) fun args => .bind ?_ fun v => .push v
    exact .callFunction (h handle (.call hi)) args
  | callMethod method argc => exact .bind (callMethod_parallel h method argc) fun v => .push v

/-- A run does the same behind a past and without it, and its output grows. -/
theorem run_behind (h : p.SameNatives functions functions') (before : Past) (steps : Nat)
    {m : Machine} (hm : m.world.Fits before) :
    run p functions' steps (m.behind before) = (run p functions steps m).behind before ∧
      m.world.Grows (run p functions steps m).world := by
  induction steps generalizing m with
  | zero =>
    cases hi : p.code[m.pc]? with
    | none =>
      rw [run_halts hi, run_halts (m := m.behind before) hi]
      exact ⟨rfl, .refl _⟩
    | some i =>
      rw [run_zero hi, run_zero (m := m.behind before) hi]
      exact ⟨rfl, .refl _⟩
  | succ steps ih =>
    cases hi : p.code[m.pc]? with
    | none =>
      rw [run_halts hi, run_halts (m := m.behind before) hi]
      exact ⟨rfl, .refl _⟩
    | some i =>
      have hstep : Parallel before (execute p functions i) (execute p functions' i) :=
        execute_parallel h (Array.mem_of_getElem? hi)
      obtain ⟨hx, hgrows⟩ := hstep { m with pc := m.pc + 1 } hm
      cases hr : execute p functions i { m with pc := m.pc + 1 } with
      | ok _ next =>
        rw [hr] at hx hgrows
        rw [run_next hi hr, run_next (m := m.behind before) hi hx]
        obtain ⟨hrest, hmore⟩ := ih (hgrows.fits hm)
        exact ⟨hrest, hgrows.trans hmore⟩
      | error fault next =>
        rw [hr] at hx hgrows
        rw [run_fails ⟨i, fault, next, hi, hr, rfl, rfl⟩,
          run_fails (m := m.behind before) ⟨i, fault, _, hi, hx, rfl, rfl⟩]
        exact ⟨rfl, hgrows⟩

end Machine
end ScriptEngine
