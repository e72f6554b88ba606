/-
One step after another.

Parsing, compiling, running and evaluating are written in monads of state and failure.
A sequence of two steps runs the second one from where the first one ends, and fails if
the first one does.
-/

namespace ScriptEngine

variable {ε σ α β : Type}

theorem bind_apply (x : EStateM ε σ α) (f : α → EStateM ε σ β) (s : σ) :
    (x >>= f) s = match x s with
      | .ok a next => f a next
      | .error e next => .error e next := by
  show EStateM.bind x f s = _
  unfold EStateM.bind
  cases x s <;> rfl

theorem result_bind_ok {x : EStateM ε σ α} {f : α → EStateM ε σ β} {s last : σ} {b : β}
    (h : (x >>= f) s = .ok b last) : ∃ a next, x s = .ok a next ∧ f a next = .ok b last := by
  rw [bind_apply] at h
  cases hx : x s with
  | ok a next =>
    rw [hx] at h
    exact ⟨a, next, rfl, h⟩
  | error e next =>
    rw [hx] at h
    cases h

theorem except_bind_ok {x : Except ε α} {f : α → Except ε β} {b : β} (h : x.bind f = .ok b) :
    ∃ a, x = .ok a ∧ f a = .ok b := by
  cases x with
  | error e => cases h
  | ok a => exact ⟨a, rfl, h⟩

theorem bind_ok {x : StateT σ (Except ε) α} {f : α → StateT σ (Except ε) β} {s : σ}
    {r : β × σ} (h : (x >>= f) s = .ok r) : ∃ a next, x s = .ok (a, next) ∧ f a next = .ok r := by
  have hbind : (x >>= f) s = (x s).bind fun r => f r.1 r.2 := rfl
  rw [hbind] at h
  obtain ⟨r, hx, hf⟩ := except_bind_ok h
  exact ⟨r.1, r.2, hx, hf⟩

end ScriptEngine
