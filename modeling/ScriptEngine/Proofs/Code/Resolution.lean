/-
A script fails at the first reference that is not resolved.

Without strict declarations nothing but a reference can be refused, and what is refused does
not depend on the variables.  So the references alone decide whether a script compiles, and
the first of them that the registry does not resolve decides the error
(`Script.compile_resolves`).  The references are listed in the order of the text, but each
before its receiver and its arguments (`Script.demands`).

A name of a parsed script can always be mangled, so the compiler never complains about the
name itself.
-/
import ScriptEngine.Proofs.Parser.Names
import ScriptEngine.Proofs.Registry.Rollback

namespace ScriptEngine

open FunctionKey (ValidName)

/-! ## References and the registry -/

/-- The registry has what a reference asks for: a function for the name and the number of arguments,
or some class with such a method. -/
def Reference.Resolves (functions : FunctionRegistry) : Reference → Prop
  | function name argc _ => ∃ handle, functions.resolve name argc = .ok (some handle)
  | constructor className argc _ =>
    ∃ handle, functions.resolve (Members.constructorName className) argc = .ok (some handle)
  | method name argc _ => functions.implementations name argc ≠ []

theorem constructorName_valid {className : String} (h : ValidName className) :
    ValidName (Members.constructorName className) := by
  obtain ⟨c, cs, hname, hc⟩ := h
  exact ⟨c, cs ++ _, by rw [Members.constructorName, String.toList_append, hname]; rfl, hc⟩

/-- A reference with a valid name is refused if it is not resolved, and for no other reason. -/
theorem Reference.refusal?_eq {functions : FunctionRegistry} {done : List Registration}
    (h : InStep functions done) {r : Reference} (hr : r.Named) :
    (r.Resolves functions ∧ r.refusal? functions = none) ∨
      (¬ r.Resolves functions ∧ r.refusal? functions = some r.error) := by
  have find : ∀ name argc l, ValidName name →
      ((∃ handle, functions.resolve name argc = .ok (some handle)) ∧
        refusal?.find r (functions.resolve name argc) l = none) ∨
      ((¬ ∃ handle, functions.resolve name argc = .ok (some handle)) ∧
        refusal?.find r (functions.resolve name argc) l = some r.error) := by
    intro name argc l hname
    rw [h.resolve_eq hname]
    cases (place? done ⟨name, .fixed argc⟩).or (place? done ⟨name, .variadic⟩) with
    | none => exact .inr ⟨by simp, rfl⟩
    | some handle => exact .inl ⟨⟨handle, rfl⟩, rfl⟩
  cases r with
  | function name argc l => exact find name argc l hr
  | constructor className argc l => exact find _ argc l (constructorName_valid hr)
  | method name argc l =>
    have hmethod := h.hasMethod_eq name argc
    have himplementations : functions.implementations name argc =
      methodPlaces done ⟨name, argc⟩ := h.methods ⟨name, argc⟩
    unfold Resolves refusal?
    dsimp only
    rw [hmethod, himplementations]
    cases methodPlaces done ⟨name, argc⟩ with
    | nil => exact .inr ⟨by simp, rfl⟩
    | cons => exact .inl ⟨by simp, rfl⟩

theorem Reference.refusal?_eq_none {functions : FunctionRegistry} {done : List Registration}
    (h : InStep functions done) {r : Reference} (hr : r.Named) :
    r.refusal? functions = none ↔ r.Resolves functions := by
  rcases refusal?_eq h hr with ⟨hres, hrefusal⟩ | ⟨hres, hrefusal⟩ <;> simp [hres, hrefusal]

theorem Reference.refusal?_eq_some {functions : FunctionRegistry} {done : List Registration}
    (h : InStep functions done) {r : Reference} (hr : r.Named) (e : CompilationError) :
    r.refusal? functions = some e ↔ ¬ r.Resolves functions ∧ e = r.error := by
  rcases refusal?_eq h hr with ⟨hres, hrefusal⟩ | ⟨hres, hrefusal⟩ <;>
    simp [hres, hrefusal, eq_comm]

/-! ## Scripts -/

namespace Script

section
variable {functions : FunctionRegistry} {done : List Registration} {s : Script}
variable (h : InStep functions done) (hnamed : AllNamed s.demands)
include h hnamed

theorem compile_ok_iff : (∃ p, s.compile ⟨functions, false⟩ = .ok p) ↔
    ∀ r ∈ s.references, r.Resolves functions := by
  rw [(compile_lenient functions s).1, List.findSome?_eq_none_iff]
  exact forall₂_congr fun r hr => Reference.refusal?_eq_none h (hnamed r hr)

theorem compile_error_iff (e : CompilationError) : s.compile ⟨functions, false⟩ = .error e ↔
    ∃ before r after, s.references = before ++ r :: after ∧
      (∀ b ∈ before, b.Resolves functions) ∧ ¬ r.Resolves functions ∧ e = r.error := by
  rw [(compile_lenient functions s).2, List.findSome?_eq_some_iff]
  refine exists_congr fun before => exists_congr fun r => exists_congr fun after =>
    and_congr_right fun hsplit => ?_
  have hbefore : ∀ b ∈ before, b ∈ s.references := fun b hb => by simp [hsplit, hb]
  have hr : r ∈ s.references := by simp [hsplit]
  rw [and_comm, Reference.refusal?_eq_some h (hnamed r hr)]
  exact and_congr_left' (forall₂_congr fun b hb =>
    Reference.refusal?_eq_none h (hnamed b (hbefore b hb)))

/-- No name is refused for itself. -/
theorem compile_ne_invalidName (strict : Bool) (cause : MangleError) (l : Location) :
    s.compile ⟨functions, strict⟩ ≠ .error (.invalidName cause l) := by
  intro hfails
  rw [(compile_demands _ s).2] at hfails
  obtain ⟨before, d, after, next, hsplit, -, hd⟩ := CompilerInput.meetAll_error hfails
  rcases CompilerInput.meet_error hd with ⟨r, rfl, hrefused⟩ | ⟨name, -, -, -, he⟩
  · have hr : r ∈ s.references := mem_references.mpr (by simp [hsplit])
    have he := ((Reference.refusal?_eq_some h (hnamed r hr) _).mp hrefused).2
    cases r <;> cases he
  · cases he

end

/-- A script compiles without strict declarations if its references are resolved, and otherwise
fails at the first one that is not. -/
structure FailsAtFirst (functions : FunctionRegistry) (s : Script) : Prop where
  succeeds : (∃ p, s.compile ⟨functions, false⟩ = .ok p) ↔
    ∀ r ∈ s.references, r.Resolves functions
  fails : ∀ e, s.compile ⟨functions, false⟩ = .error e ↔ ∃ before r after,
    s.references = before ++ r :: after ∧ (∀ b ∈ before, b.Resolves functions) ∧
      ¬ r.Resolves functions ∧ e = r.error
  /-- No name is refused for itself, with strict declarations or without them. -/
  validNames : ∀ strict cause l, s.compile ⟨functions, strict⟩ ≠ .error (.invalidName cause l)

/-- A parsed script fails at the first reference that is not resolved, whatever was registered and
whatever was refused. -/
theorem compile_resolves (changes : List Registry.Change) (text : String) :
    FailsAtFirst (Registry.undergoAll changes).1.functions (parse text).1 := by
  have h := (Registry.sound_undergoAll changes).inStep
  have hnamed := parse_named text
  exact ⟨compile_ok_iff h hnamed, compile_error_iff h hnamed, compile_ne_invalidName h hnamed⟩

/-- A reference comes before those in its receiver and in its arguments. -/
example : (parse "f(A(1)).m(g())").1.references.map Reference.error =
    [.unknownMethod "m" 1 ⟨1, 9⟩, .unknownFunction "f" 1 ⟨1, 1⟩, .unknownConstructor "A" 1 ⟨1, 3⟩,
      .unknownFunction "g" 0 ⟨1, 11⟩] := by decide +kernel

end Script
end ScriptEngine
