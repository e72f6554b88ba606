/-
What natives check before they run.

The arguments of a call are converted from the left, one for each parameter
(`Action.apply`).  The first argument that does not convert ends the call
(`apply_misfit`), and the function of the host is reached with the inputs in the
order of the arguments (`apply_converts`).  No other case is left
(`misfit_or_converts`).

A failed check is a failure alone: it makes no request, so the world of a refused call stays as
it is.  The accessors of a class ask for the object after these checks, and ask for nothing else
when it is refused.
-/
import ScriptEngine.Proofs.Registry.Directory
import ScriptEngine.Registry.Members

namespace ScriptEngine

/-- The inputs of a function: a value of the host for each parameter. -/
@[reducible] def Inputs : List NativeType → Type
  | [] => Unit
  | t :: ts => t.Carrier × Inputs ts

/-- Gives a function its inputs, one after the other. -/
def Curried.on {ρ : Type} : (params : List NativeType) → Curried ρ params → Inputs params → ρ
  | [], run, _ => run
  | _ :: ts, f, inputs => on ts (f inputs.1) inputs.2

/-- Every argument converts to the type of its parameter, and gives the input in its place. -/
inductive Converts : (params : List NativeType) → List Value → Inputs params → Prop
  | nil : Converts [] [] ()
  | cons {t ts v rest a inputs} (first : t.read v = .ok a) (others : Converts ts rest inputs) :
      Converts (t :: ts) (v :: rest) (a, inputs)

/-- The argument at the index does not convert to the type of its parameter. -/
def Misfit (params : List NativeType) (args : List Value) (i : Nat) (e : ConversionError) : Prop :=
  ∃ t v, params[i]? = some t ∧ args[i]? = some v ∧ t.read v = .error e

/-- The argument at the index does not convert, and those before it do. -/
structure FirstMisfit (params : List NativeType) (args : List Value) (i : Nat)
    (e : ConversionError) : Prop where
  fails : Misfit params args i e
  least : ∀ j e', Misfit params args j e' → i ≤ j

section
variable {t : NativeType} {ts : List NativeType} {v : Value} {rest : List Value} {i : Nat}
  {e : ConversionError}

theorem misfit_zero : Misfit (t :: ts) (v :: rest) 0 e ↔ t.read v = .error e := by
  simp [Misfit]

theorem misfit_succ : Misfit (t :: ts) (v :: rest) (i + 1) e ↔ Misfit ts rest i e := by
  simp [Misfit]

/-- An argument that converts moves the first misfit one place further. -/
theorem firstMisfit_succ {a : t.Carrier} (hread : t.read v = .ok a) :
    FirstMisfit (t :: ts) (v :: rest) (i + 1) e ↔ FirstMisfit ts rest i e := by
  constructor
  · rintro ⟨hfails, hleast⟩
    exact ⟨misfit_succ.mp hfails, fun j e' h =>
      Nat.le_of_succ_le_succ (hleast (j + 1) e' (misfit_succ.mpr h))⟩
  · rintro ⟨hfails, hleast⟩
    refine ⟨misfit_succ.mpr hfails, fun j e' h => ?_⟩
    cases j with
    | zero =>
      rw [misfit_zero, hread] at h
      cases h
    | succ j => exact Nat.succ_le_succ (hleast j e' (misfit_succ.mp h))

/-- An argument that does not convert is the first one that does not, if none stands before it. -/
theorem firstMisfit_zero {e' : ConversionError} (hread : t.read v = .error e') :
    FirstMisfit (t :: ts) (v :: rest) i e ↔ i = 0 ∧ e = e' := by
  constructor
  · rintro ⟨hfails, hleast⟩
    obtain rfl : i = 0 := Nat.le_zero.mp (hleast 0 e' (misfit_zero.mpr hread))
    rw [misfit_zero, hread] at hfails
    exact ⟨rfl, (Except.error.inj hfails).symm⟩
  · rintro ⟨rfl, rfl⟩
    exact ⟨misfit_zero.mpr hread, fun j e' _ => Nat.zero_le j⟩

end

/-- The arguments of a full list all convert, or one of them is the first that does not. -/
theorem misfit_or_converts {params : List NativeType} {args : List Value}
    (h : args.length = params.length) :
    (∃ i e, FirstMisfit params args i e) ∨ ∃ inputs, Converts params args inputs := by
  induction params generalizing args with
  | nil =>
    obtain rfl := List.length_eq_zero_iff.mp h
    exact .inr ⟨(), .nil⟩
  | cons t ts ih =>
    obtain ⟨v, rest, rfl⟩ := List.exists_cons_of_length_eq_add_one h
    cases hread : t.read v with
    | error e => exact .inl ⟨0, e, (firstMisfit_zero hread).mpr ⟨rfl, rfl⟩⟩
    | ok a =>
      rcases ih (Nat.succ.inj h) with ⟨i, e, hmisfit⟩ | ⟨inputs, hconverts⟩
      · exact .inl ⟨i + 1, e, (firstMisfit_succ hread).mpr hmisfit⟩
      · exact .inr ⟨(a, inputs), .cons hread hconverts⟩

theorem Converts.length {params : List NativeType} {args : List Value} {inputs : Inputs params}
    (h : Converts params args inputs) : args.length = params.length := by
  induction h with
  | nil => rfl
  | cons _ _ ih => rw [List.length_cons, List.length_cons, ih]

theorem Converts.unique {params : List NativeType} {args : List Value} {inputs other : Inputs params}
    (h : Converts params args inputs) (h' : Converts params args other) : inputs = other := by
  induction h with
  | nil => rfl
  | cons first _ ih =>
    cases h' with
    | cons first' others' =>
      cases first.symm.trans first'
      rw [ih others']

theorem Converts.not_misfit {params : List NativeType} {args : List Value} {inputs : Inputs params}
    (h : Converts params args inputs) (i : Nat) (e : ConversionError) :
    ¬Misfit params args i e := by
  induction h generalizing i with
  | nil =>
    rintro ⟨t, v, hparam, -⟩
    cases hparam
  | cons first _ ih =>
    cases i with
    | zero =>
      rw [misfit_zero, first]
      rintro ⟨⟩
    | succ i => exact mt misfit_succ.mp (ih i)

namespace Action

variable {ρ : Type} {params : List NativeType}

theorem argument_append (t : NativeType) (front rest : List Value) (v : Value) :
    argument t (front ++ v :: rest) front.length =
      (t.read v).mapError (.argument front.length) := by
  unfold argument
  rw [List.getElem?_append_right (Nat.le_refl _), Nat.sub_self, List.getElem?_cons_zero]
  dsimp only
  cases t.read v <;> rfl

theorem apply_converts {rest : List Value} {inputs : Inputs params}
    (h : Converts params rest inputs) (front : List Value) (f : Curried (Action ρ) params) :
    apply (front ++ rest) front.length params f = Curried.on params f inputs := by
  induction h generalizing front with
  | nil => rfl
  | @cons t ts v rest a inputs first _ ih =>
    have hnext := ih (front ++ [v]) (f a)
    rw [List.append_assoc, List.length_append] at hnext
    rw [apply, argument_append, first]
    exact hnext

theorem apply_misfit {rest : List Value} {i : Nat} {e : ConversionError}
    (h : FirstMisfit params rest i e) (front : List Value) (f : Curried (Action ρ) params) :
    apply (front ++ rest) front.length params f = fail (.argument (front.length + i) e) := by
  induction params generalizing rest front i with
  | nil =>
    obtain ⟨⟨t, v, hparam, -⟩, -⟩ := h
    cases hparam
  | cons t ts ih =>
    cases rest with
    | nil =>
      obtain ⟨⟨t, v, -, harg, -⟩, -⟩ := h
      cases harg
    | cons v rest =>
      rw [apply, argument_append]
      cases hread : t.read v with
      | error e' =>
        obtain ⟨rfl, rfl⟩ := (firstMisfit_zero hread).mp h
        rfl
      | ok a =>
        cases i with
        | zero =>
          obtain ⟨hfails, -⟩ := h
          rw [misfit_zero, hread] at hfails
          cases hfails
        | succ i =>
          have hnext := ih ((firstMisfit_succ hread).mp h) (front ++ [v]) (f a)
          rw [List.append_assoc, List.length_append, Nat.add_assoc,
            Nat.add_comm [v].length] at hnext
          exact hnext

end Action

/-- A call checks everything before it runs: the number of the arguments, then each of them from
the left.  What is refused leaves the world as it is. -/
structure NativeFunction.ChecksFirst (f : NativeFunction) (params : List NativeType)
    (body : Inputs params → Action Value) : Prop where
  count : ∀ args w, args.length ≠ params.length →
    (f.call args).run w = .error (.argumentCount params.length args.length) w
  /-- The error names the first argument that does not convert. -/
  misfit : ∀ args j e', args.length = params.length → Misfit params args j e' →
    ∃ i e, FirstMisfit params args i e ∧ ∀ w, (f.call args).run w = .error (.argument i e) w
  /-- The function runs if all arguments convert. -/
  runs : ∀ args, args.length = params.length → (∀ i e, ¬Misfit params args i e) →
    ∃ inputs, Converts params args inputs ∧ f.call args = body inputs

/-- A call fails before anything is done, or does what the function does on its inputs. -/
theorem NativeFunction.ChecksFirst.refused_or_runs {f : NativeFunction} {params : List NativeType}
    {body : Inputs params → Action Value} (h : f.ChecksFirst params body) (args : List Value) :
    (∃ e, ∀ w, (f.call args).run w = .error e w) ∧ (∀ inputs, ¬Converts params args inputs) ∨
      ∃ inputs, Converts params args inputs ∧ f.call args = body inputs := by
  by_cases hlength : args.length = params.length
  · rcases misfit_or_converts hlength with ⟨i, e, hmisfit⟩ | ⟨inputs, hconverts⟩
    · obtain ⟨j, e', -, herror⟩ := h.misfit args i e hlength hmisfit.fails
      exact .inl ⟨⟨_, herror⟩, fun inputs hconverts => hconverts.not_misfit i e hmisfit.fails⟩
    · exact .inr (h.runs args hlength hconverts.not_misfit)
  · exact .inl ⟨⟨_, fun w => h.count args w hlength⟩,
      fun inputs hconverts => hlength hconverts.length⟩

/-- A function that applies a function of the host to its arguments checks them first. -/
theorem NativeFunction.checksFirst_of_apply {ρ : Type} {params : List NativeType}
    {f : NativeFunction} {g : Curried (Action ρ) params} {finish : ρ → Action Value}
    (harity : f.arity = .fixed params.length)
    (hbody : ∀ args, f.body args = Action.apply args 0 params g >>= finish) :
    f.ChecksFirst params fun inputs => Curried.on params g inputs >>= finish := by
  have hcall : ∀ args, args.length = params.length →
      f.call args = Action.apply args 0 params g >>= finish := by
    intro args hlength
    simp only [call, harity]
    rw [if_pos hlength.symm, hbody]
  refine ⟨fun args w hlength => ?_, fun args j e' hlength hsome => ?_, fun args hlength hnone => ?_⟩
  · simp only [call, harity]
    rw [if_neg (Ne.symm hlength)]
    rfl
  · rcases misfit_or_converts hlength with ⟨i, e, hmisfit⟩ | ⟨inputs, hconverts⟩
    · have happly := Action.apply_misfit hmisfit [] g
      rw [List.nil_append, List.length_nil, Nat.zero_add] at happly
      refine ⟨i, e, hmisfit, fun w => ?_⟩
      rw [hcall args hlength, happly]
      rfl
    · exact absurd hsome (hconverts.not_misfit j e')
  · rcases misfit_or_converts hlength with ⟨i, e, hmisfit⟩ | ⟨inputs, hconverts⟩
    · exact absurd hmisfit.fails (hnone i e)
    · refine ⟨inputs, hconverts, ?_⟩
      rw [hcall args hlength]
      exact congrArg (· >>= finish) (Action.apply_converts hconverts [] g)

theorem NativeFunction.checksFirst_typed (params : List NativeType) (result : NativeType)
    (f : Curried (Action result.Carrier) params) :
    (typed params result f).ChecksFirst params fun inputs =>
      Curried.on params f inputs >>= fun r => pure (result.write r) :=
  checksFirst_of_apply rfl fun _ => rfl

namespace Members

variable (α : Type) [HostClass α]

/-- What a getter does with its receiver. -/
def getBody (result : NativeType) (get : α → result.Carrier) (inputs : Inputs [self α]) :
    Action Value :=
  (Action.read α inputs.1 >>= fun a => pure (get a)) >>= fun r => pure (result.write r)

/-- What a setter does with its receiver and the value. -/
def setBody (type : NativeType) (set : α → type.Carrier → α) (inputs : Inputs [self α, type]) :
    Action Value :=
  (Action.update α inputs.1 fun a => set a inputs.2.1) >>= fun r => pure (NativeType.unset.write r)

end Members

namespace Action

variable {α : Type} [HostClass α] {ref : ObjectRef} {w : World} {a : α} {e : ConversionError}

theorem run_read (h : w.store.read α ref = .ok a) : (read α ref).run w = .ok a w := by
  simp only [read, run, h]

theorem run_read_refused (h : w.store.read α ref = .error e) :
    (read α ref).run w = .error (.conversion e) w := by
  simp only [read, run, h]

theorem run_update (f : α → α) (h : w.store.readToWrite α ref = .ok a) :
    (update α ref f).run w = .ok () { w with store := w.store.write ref (f a) } := by
  simp only [update, modifyGet, run, h]

theorem run_update_refused (f : α → α) (h : w.store.readToWrite α ref = .error e) :
    (update α ref f).run w = .error (.conversion e) w := by
  simp only [update, modifyGet, run, h]

end Action

/-- Typed functions, and the constructors and accessors of a class, check before they run.  An
accessor whose checks pass is still refused an object that others hold. -/
structure NativesCheck (α : Type) [HostClass α] : Prop where
  typed : ∀ params result (f : Curried (Action result.Carrier) params),
    (NativeFunction.typed params result f).ChecksFirst params fun inputs => do
      let r ← Curried.on params f inputs
      pure (result.write r)
  constructor : ∀ params (f : Curried (Action α) params),
    (Members.constructor α params f).native.ChecksFirst params fun inputs => do
      let a ← Curried.on params f inputs
      pure (.object (← Action.create a))
  getter : ∀ member result get,
    (Members.getter α member result get).native.ChecksFirst [Members.self α]
      (Members.getBody α result get)
  setter : ∀ member type set,
    (Members.setter α member type set).native.ChecksFirst [Members.self α, type]
      (Members.setBody α type set)
  read : ∀ result get (ref : ObjectRef) w a, w.store.read α ref = .ok a →
    (Members.getBody α result get (ref, ())).run w = .ok (result.write (get a)) w
  readRefused : ∀ result get (ref : ObjectRef) w e, w.store.read α ref = .error e →
    (Members.getBody α result get (ref, ())).run w = .error (.conversion e) w
  written : ∀ type set ref v w a, w.store.readToWrite α ref = .ok a →
    (Members.setBody α type set (ref, v, ())).run w =
      .ok .unset { w with store := w.store.write ref (set a v) }
  writeRefused : ∀ type set ref v w e, w.store.readToWrite α ref = .error e →
    (Members.setBody α type set (ref, v, ())).run w = .error (.conversion e) w

theorem natives_check (α : Type) [HostClass α] : NativesCheck α where
  typed := NativeFunction.checksFirst_typed
  constructor _ _ := NativeFunction.checksFirst_of_apply rfl fun _ => rfl
  getter _ result get := NativeFunction.checksFirst_typed [Members.self α] result fun ref => do
    pure (get (← Action.read α ref))
  setter _ type set := NativeFunction.checksFirst_typed [Members.self α, type] .unset
    fun ref v => Action.update α ref fun a => set a v
  read result get ref w a h := by
    simp only [Members.getBody, Action.run_bind, Action.run_read h, Action.run_pure]
  readRefused result get ref w e h := by
    simp only [Members.getBody, Action.run_bind, Action.run_read_refused h]
  written type set ref v w a h := by
    simp only [Members.setBody, Action.run_bind, Action.run_update _ h, Action.run_pure,
      NativeType.write]
  writeRefused type set ref v w e h := by
    simp only [Members.setBody, Action.run_bind, Action.run_update_refused _ h]

end ScriptEngine
