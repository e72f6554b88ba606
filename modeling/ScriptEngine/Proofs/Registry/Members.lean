/-
The members of an added class stay.

A class is added with all that its setup requests (`Setup.granted_ofList`), and what was granted
stays granted whatever is registered later (`Registry.mem_granted`).  A granted method is found
under the joined name and where calls are dispatched (`InStep.method_found`).
-/
import ScriptEngine.Proofs.Registry.Scoping

namespace ScriptEngine

/-- A list of requests that ends well was granted as a whole. -/
theorem Setup.granted_ofList {items : List Registration} {r : FunctionRegistry}
    (h : ((ofList items).run r).1 = .ok ()) : (ofList items).granted r = items := by
  induction items generalizing r with
  | nil => rfl
  | cons q items ih =>
    rw [ofList, run] at h
    rw [ofList, granted]
    cases hadd : r.add q with
    | error e =>
      rw [hadd] at h
      cases h
    | ok result =>
      rw [hadd] at h
      exact congrArg (q :: ·) (ih h)

namespace Registry

theorem granted_prefix (s : Registry × List Registration) (changes : List Change) :
    s.2 <+: (changes.foldl undergo s).2 := by
  induction changes generalizing s with
  | nil => exact List.prefix_refl _
  | cons c changes ih => exact (List.prefix_append _ _).trans (ih (undergo s c))

/-- The requests of a class that was added stay granted, whatever is registered later. -/
theorem mem_granted {before : List Change} {name : String} {items : List Registration}
    (hadded : ((undergoAll before).1.addClass ⟨name, .ofList items⟩).1 = .ok true)
    (after : List Change) {q : Registration} (hq : q ∈ items) :
    q ∈ (undergoAll (before ++ .addClass ⟨name, .ofList items⟩ :: after)).2 := by
  have hsound := sound_undergoAll before
  have hgranted : (undergoAll before).1.granted (.addClass ⟨name, .ofList items⟩) = items := by
    cases hclass : (undergoAll before).1.hasClass name with
    | true =>
      rw [addClass_present hclass] at hadded
      cases hadded
    | false =>
      have hadd := addClass_absent (c := ⟨name, .ofList items⟩) hsound.filled hclass
      rw [granted, hadd]
      rw [hadd] at hadded
      cases hrun : ((Setup.ofList items).run (undergoAll before).1.functions).1 with
      | error e =>
        rw [hrun] at hadded
        cases hadded
      | ok => exact Setup.granted_ofList hrun
  have hlater := granted_prefix (undergo (undergoAll before) (.addClass ⟨name, .ofList items⟩)) after
  rw [undergoAll, List.foldl_append]
  refine hlater.subset (List.mem_append_right _ ?_)
  rw [hgranted]
  exact hq

end Registry

/-- A granted method is found among the implementations that a call is dispatched to and, where its
arguments can be counted together with the receiver, under the name of its class. -/
theorem InStep.method_found {r : FunctionRegistry} {done : List Registration} (h : InStep r done)
    {q : Registration} (hq : q ∈ done) {className : String} {key : MethodKey}
    (hmethod : q.method? = some (className, key)) (hargc : key.argc + 1 < wordLimit) :
    ∃ handle entry, r.indexOfMethod? className key.method key.argc = .ok (some handle) ∧
      (className, handle) ∈ r.implementations key.method key.argc ∧
      r.entry? handle = some entry ∧ entry.function = q.native := by
  obtain ⟨handle, hhandle⟩ := List.mem_iff_getElem?.mp hq
  obtain ⟨key', entry, -, hentry, -, -, hfunction⟩ := h.entry hhandle
  exact ⟨handle, entry,
    (h.indexOfMethod?_iff hargc).mpr ⟨q, hhandle, Registration.key?_of_method? hmethod⟩,
    h.implementations_iff.mpr ⟨q, hhandle, hmethod⟩, hentry, hfunction⟩

end ScriptEngine
