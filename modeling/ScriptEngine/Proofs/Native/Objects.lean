/-
Which objects a native function touches.

A function changes a store by writing to an object that is there (`Store.Updates`) or by making
one (`Store.Creates`); all other objects stay as they are.  What it does depends on its inputs, and
`NativeFunction.Performs` says of all calls at once that they have a given effect on the store or
fail and leave everything as it was.  For a function that checks its arguments first it is enough
to show this of its body (`performs_of_body`).
-/
import ScriptEngine.Machine.Run
import ScriptEngine.Proofs.Native.Checks

namespace ScriptEngine

namespace Store

variable {α : Type} [HostClass α] {s : Store} {ref : ObjectRef} {a : α} {held : Bool}

/-! ## Reading -/

theorem borrow_eq_ok : borrow α held s ref = .ok a ↔
    ref.className = HostClass.className α ∧ held = false ∧ s.valueAt? α ref = some a := by
  unfold borrow checkClass
  by_cases hclass : ref.className = HostClass.className α
  · cases held
    · cases hvalue : s.valueAt? α ref <;> simp [hclass, bind, Except.bind, pure, Except.pure]
    · simp [hclass, bind, Except.bind]
  · simp [hclass, bind, Except.bind]

/-- An object that can be read or written to has a cell. -/
theorem cell_of_value (h : s.valueAt? α ref = some a) :
    ∃ cell, s.cells[ref.cell]? = some cell ∧ cell.content.value? α = some a := by
  obtain ⟨cell, hcell, hvalue⟩ := Option.bind_eq_some_iff.mp h
  exact ⟨cell, hcell, hvalue⟩

/-! ## Writing to an object -/

/-- The second store has the value in the object of the reference, and is the first one in all else:
the other objects, who holds the object, and the time. -/
structure Updates (ref : ObjectRef) (a : α) (s s' : Store) : Prop where
  others : ∀ k ≠ ref.cell, s'.cells[k]? = s.cells[k]?
  content : s'.cells[ref.cell]?.map Cell.content = some (.ofValue a)
  held : s'.cells[ref.cell]?.map Cell.hold = s.cells[ref.cell]?.map Cell.hold
  clock : s'.clock = s.clock
  /-- The value is seen through every reference to the object. -/
  seen : ∀ other : ObjectRef, other.cell = ref.cell → s'.valueAt? α other = some a

theorem write_updates {old : α} (h : s.valueAt? α ref = some old) (a : α) :
    Updates ref a s (s.write ref a) := by
  obtain ⟨cell, hcell, -⟩ := cell_of_value h
  have hwritten : (s.write ref a).cells[ref.cell]? = some { cell with content := .ofValue a } := by
    rw [write, Array.getElem?_modify, if_pos rfl, hcell]
    rfl
  constructor
  case others =>
    intro k hk
    rw [write, Array.getElem?_modify, if_neg hk.symm]
  case content =>
    rw [hwritten]
    rfl
  case held =>
    rw [hwritten, hcell]
    rfl
  case clock => rfl
  case seen =>
    intro other hother
    rw [valueAt?, hother, hwritten]
    exact Instance.value?_ofValue a

/-- Nothing but writing the value to the object does that. -/
theorem Updates.eq_write {s' : Store} (h : Updates ref a s s') : s' = s.write ref a := by
  have hcells : s'.cells = (s.write ref a).cells := by
    refine Array.ext_getElem? fun k => ?_
    rw [write, Array.getElem?_modify]
    by_cases hk : ref.cell = k
    · subst hk
      have hcontent := h.content
      have hheld := h.held
      rw [if_pos rfl]
      cases hafter : s'.cells[ref.cell]? with
      | none =>
        rw [hafter] at hcontent
        cases hcontent
      | some after =>
        cases hbefore : s.cells[ref.cell]? with
        | none =>
          rw [hafter, hbefore] at hheld
          cases hheld
        | some before =>
          rw [hafter] at hcontent hheld
          rw [hbefore] at hheld
          obtain ⟨content, hold⟩ := after
          cases Option.some.inj hcontent
          cases Option.some.inj hheld
          rfl
    · rw [if_neg hk, h.others k (Ne.symm hk)]
  have hclock := h.clock
  obtain ⟨cells, clock⟩ := s'
  cases hcells
  cases hclock
  rfl

/-! ## Making an object -/

/-- The second store has one object more, with the value, and is the first one in all else. -/
structure Creates (ref : ObjectRef) (a : α) (s s' : Store) : Prop where
  /-- No object that was there has the reference. -/
  fresh : ∀ old : ObjectRef, (s.cells[old.cell]?).isSome → old.cell ≠ ref.cell
  size : s'.cells.size = s.cells.size + 1
  others : ∀ k < s.cells.size, s'.cells[k]? = s.cells[k]?
  clock : s'.clock = s.clock
  value : s'.valueAt? α ref = some a

theorem allocate_creates (s : Store) (a : α) : Creates (s.fresh α) a s (s.allocate a) := by
  constructor
  case fresh =>
    intro old hold heq
    rw [heq, fresh, Array.getElem?_eq_none (Nat.le_refl _)] at hold
    cases hold
  case size => exact Array.size_push _
  case others =>
    intro k hk
    rw [allocate, Array.getElem?_push_lt hk, Array.getElem?_eq_getElem hk]
  case clock => rfl
  case value =>
    rw [valueAt?, allocate, fresh, Array.getElem?_push_size]
    exact Instance.value?_ofValue a

end Store

/-! ## Arguments -/

section
variable {args : List Value} {t : NativeType} {ts : List NativeType}

theorem converts_nil {inputs : Inputs []} : Converts [] args inputs ↔ args = [] := by
  constructor
  · rintro ⟨⟩
    rfl
  · rintro rfl
    exact .nil

theorem converts_cons {a : t.Carrier} {inputs : Inputs ts} :
    Converts (t :: ts) args (a, inputs) ↔
      ∃ v rest, args = v :: rest ∧ t.read v = .ok a ∧ Converts ts rest inputs := by
  constructor
  · rintro ⟨⟩
    exact ⟨_, _, rfl, ‹_›, ‹_›⟩
  · rintro ⟨v, rest, rfl, hread, hrest⟩
    exact .cons hread hrest

theorem converts_number {x : Float} {inputs : Inputs ts} :
    Converts (.number :: ts) args (x, inputs) ↔
      ∃ rest, args = .number x :: rest ∧ Converts ts rest inputs := by
  rw [converts_cons]
  constructor
  · rintro ⟨v, rest, rfl, hread, hrest⟩
    cases v <;> cases hread
    exact ⟨rest, rfl, hrest⟩
  · rintro ⟨rest, rfl, hrest⟩
    exact ⟨_, rest, rfl, rfl, hrest⟩

theorem converts_instance {className : String} {ref : ObjectRef} {inputs : Inputs ts} :
    Converts (.instanceOf className :: ts) args (ref, inputs) ↔
      ref.className = className ∧ ∃ rest, args = .object ref :: rest ∧ Converts ts rest inputs := by
  rw [converts_cons]
  constructor
  · rintro ⟨v, rest, rfl, hread, hrest⟩
    cases v with
    | object r =>
      rw [NativeType.read] at hread
      split at hread
      · cases hread
        exact ⟨‹_›, rest, rfl, hrest⟩
      · cases hread
    | _ => cases hread
  · rintro ⟨hclass, rest, rfl, hrest⟩
    exact ⟨_, rest, rfl, if_pos hclass, hrest⟩

end

/-! ## Effects -/

/-- A relation between the arguments of a call with the store before it, and the result of the call
with the store after it. -/
abbrev Effect := List Value → Store → Value → Store → Prop

/-- What an operation on a world does to its store: it has the effect, or it fails where the effect
is impossible and leaves the world as it was. -/
def Action.Performs (a : Action Value) (w : World) (effect : Value → Store → Prop) : Prop :=
  (∃ v s, a.run w = .ok v { w with store := s } ∧ effect v s) ∨
    (∃ e, a.run w = .error e w) ∧ ∀ v s, ¬effect v s

/-- Every call of the function has the effect, or fails where the effect is impossible and changes
nothing. -/
def NativeFunction.Performs (f : NativeFunction) (effect : Effect) : Prop :=
  ∀ args w, (f.call args).Performs w (effect args w.store)

theorem NativeFunction.performs_of_body {f : NativeFunction} {params : List NativeType}
    {body : Inputs params → Action Value} (h : f.ChecksFirst params body)
    (effect : Inputs params → Store → Value → Store → Prop)
    (hbody : ∀ inputs w, (body inputs).Performs w (effect inputs w.store)) :
    f.Performs fun args s v s' => ∃ inputs, Converts params args inputs ∧ effect inputs s v s' := by
  intro args w
  rcases h.refused_or_runs args with ⟨⟨e, herror⟩, hnone⟩ | ⟨inputs, hconverts, hcall⟩
  · refine .inr ⟨⟨e, herror w⟩, ?_⟩
    rintro v s ⟨inputs, hconverts, -⟩
    exact hnone inputs hconverts
  · rcases hbody inputs w with ⟨v, s, hrun, heffect⟩ | ⟨⟨e, hrun⟩, hnone⟩
    · exact .inl ⟨v, s, hcall ▸ hrun, inputs, hconverts, heffect⟩
    · refine .inr ⟨⟨e, hcall ▸ hrun⟩, ?_⟩
      rintro v s ⟨other, hother, heffect⟩
      rw [hother.unique hconverts] at heffect
      exact hnone v s heffect

theorem Action.run_create {α : Type} [HostClass α] (a : α) (w : World) :
    (create a).run w = .ok (w.store.fresh α) { w with store := w.store.allocate a } := rfl

theorem NativeFunction.Performs.congr {f : NativeFunction} {effect effect' : Effect}
    (h : f.Performs effect) (hiff : ∀ args s v s', effect args s v s' ↔ effect' args s v s') :
    f.Performs effect' := by
  have heq : effect = effect' := by
    funext args s v s'
    exact propext (hiff args s v s')
  exact heq ▸ h

namespace Members

variable {α : Type} [HostClass α]

/-- A getter gives a part of its receiver and changes nothing. -/
theorem getter_performs (member : String) (result : NativeType) (get : α → result.Carrier) :
    (getter α member result get).native.Performs fun args s v s' => ∃ ref a,
      args = [.object ref] ∧ s.read α ref = .ok a ∧ v = result.write (get a) ∧ s' = s := by
  have hchecks : (getter α member result get).native.ChecksFirst [self α]
      (getBody α result get) :=
    NativeFunction.checksFirst_typed [self α] result fun ref => do
      pure (get (← Action.read α ref))
  refine (NativeFunction.performs_of_body hchecks (fun inputs s v s' => ∃ a,
    s.read α inputs.1 = .ok a ∧ v = result.write (get a) ∧ s' = s) ?_).congr ?_
  · rintro ⟨ref, ⟨⟩⟩ w
    cases hread : w.store.read α ref with
    | ok a =>
      refine .inl ⟨result.write (get a), w.store, ?_, a, rfl, rfl, rfl⟩
      simp only [getBody, Action.run_bind, Action.run_read hread, Action.run_pure]
    | error e =>
      refine .inr ⟨⟨.conversion e, ?_⟩, ?_⟩
      · simp only [getBody, Action.run_bind, Action.run_read_refused hread]
      · rintro v s ⟨a, ⟨⟩, -⟩
  · intro args s v s'
    constructor
    · rintro ⟨⟨ref, ⟨⟩⟩, hconverts, a, hread, heffect⟩
      obtain ⟨-, rest, rfl, hrest⟩ := converts_instance.mp hconverts
      obtain rfl := converts_nil.mp hrest
      exact ⟨ref, a, rfl, hread, heffect⟩
    · rintro ⟨ref, a, rfl, hread, heffect⟩
      have hclass := (Store.borrow_eq_ok.mp hread).1
      exact ⟨(ref, ()), converts_instance.mpr ⟨hclass, [], rfl, .nil⟩, a, hread, heffect⟩

/-- A setter gives its receiver another value and changes nothing else. -/
theorem setter_performs (member : String) (type : NativeType) (set : α → type.Carrier → α) :
    (setter α member type set).native.Performs fun args s v s' => ∃ ref arg x a,
      args = [.object ref, arg] ∧ type.read arg = .ok x ∧ s.readToWrite α ref = .ok a ∧
        v = .unset ∧ s' = s.write ref (set a x) := by
  have hchecks : (setter α member type set).native.ChecksFirst [self α, type]
      (setBody α type set) :=
    NativeFunction.checksFirst_typed [self α, type] .unset fun ref v =>
      Action.update α ref fun a => set a v
  refine (NativeFunction.performs_of_body hchecks (fun inputs s v s' => ∃ a,
    s.readToWrite α inputs.1 = .ok a ∧ v = .unset ∧
      s' = s.write inputs.1 (set a inputs.2.1)) ?_).congr ?_
  · rintro ⟨ref, x, ⟨⟩⟩ w
    cases hread : w.store.readToWrite α ref with
    | ok a =>
      refine .inl ⟨.unset, w.store.write ref (set a x), ?_, a, rfl, rfl, rfl⟩
      simp only [setBody, Action.run_bind, Action.run_update _ hread, Action.run_pure,
        NativeType.write]
    | error e =>
      refine .inr ⟨⟨.conversion e, ?_⟩, ?_⟩
      · simp only [setBody, Action.run_bind, Action.run_update_refused _ hread]
      · rintro v s ⟨a, ⟨⟩, -⟩
  · intro args s v s'
    constructor
    · rintro ⟨⟨ref, x, ⟨⟩⟩, hconverts, a, hread, heffect⟩
      obtain ⟨-, rest, rfl, hrest⟩ := converts_instance.mp hconverts
      obtain ⟨arg, none, rfl, harg, hnone⟩ := converts_cons.mp hrest
      obtain rfl := converts_nil.mp hnone
      exact ⟨ref, arg, x, a, rfl, harg, hread, heffect⟩
    · rintro ⟨ref, arg, x, a, rfl, harg, hread, heffect⟩
      have hclass := (Store.borrow_eq_ok.mp hread).1
      have harg := converts_cons.mpr ⟨arg, [], rfl, harg, .nil⟩
      exact ⟨(ref, x, ()), converts_instance.mpr ⟨hclass, [arg], rfl, harg⟩, a, hread, heffect⟩

end Members

/-! ## Calls -/

/-- A call through the registry has the effect and leaves all of the machine but its store as it
was, or it fails where the effect is impossible and changes nothing. -/
def FunctionRegistry.CallPerforms (r : FunctionRegistry) (handle : Nat) (effect : Effect) : Prop :=
  ∀ args m,
    (∃ v s, Machine.callFunction r handle args m =
        .ok v { m with world := { m.world with store := s } } ∧ effect args m.world.store v s) ∨
      (∃ e, Machine.callFunction r handle args m = .error e m) ∧
        ∀ v s, ¬effect args m.world.store v s

theorem FunctionRegistry.callPerforms_of_entry {r : FunctionRegistry} {handle : Nat} {entry : Entry}
    {effect : Effect} (hentry : r.entry? handle = some entry)
    (hperforms : entry.function.Performs effect) : r.CallPerforms handle effect := by
  intro args m
  rcases hperforms args m.world with ⟨v, s, hrun, heffect⟩ | ⟨⟨e, hrun⟩, hnone⟩
  · refine .inl ⟨v, s, ?_, heffect⟩
    simp only [Machine.callFunction, hentry, hrun]
  · refine .inr ⟨⟨.native entry.name e, ?_⟩, hnone⟩
    simp only [Machine.callFunction, hentry, hrun]

end ScriptEngine
