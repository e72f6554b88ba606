/-
Programs outlive registrations.

A handle is a place in the list of registered functions.  A registration adds at the end of
that list, and a class that fails is cut off where it began, so the functions that are
there stay where they are (`Engine.entries_performAll`).  A program refers to functions that
were there when it was compiled.  So whatever an engine does afterwards, the program runs as
before, also where its source would now compile to another one (`Engine.compile_survives`).
-/
import ScriptEngine.Proofs.Engine.Isolation
import ScriptEngine.Proofs.Registry.Rollback

namespace ScriptEngine

/-! ## Registries -/

namespace FunctionRegistry

variable {functions functions' : FunctionRegistry}

/-- A function keeps its handle when others are added behind it. -/
theorem entry?_of_prefix (h : functions.entries.toList <+: functions'.entries.toList)
    {handle : Nat} {entry : Entry} (hentry : functions.entry? handle = some entry) :
    functions'.entry? handle = some entry := by
  unfold entry? at hentry ⊢
  rw [← Array.getElem?_toList] at hentry ⊢
  exact getElem?_of_prefix h hentry

/-- What was there before a registry grew is there after it is cut back to its old size. -/
theorem entries_truncate (h : functions.entries.toList <+: functions'.entries.toList) :
    functions.entries.toList <+: (functions'.truncate functions.size).entries.toList := by
  rw [truncate_entries, Array.take_eq_extract, Array.toList_extract, List.extract_eq_take_drop,
    List.drop_zero, List.prefix_take_iff]
  exact ⟨h, Nat.le_of_eq Array.length_toList⟩

end FunctionRegistry

namespace Registry

theorem entries_add (r : Registry) (q : Registration) :
    r.functions.entries.toList <+: (r.add q).2.functions.entries.toList := by
  rw [add]
  cases hadd : r.functions.add q with
  | error cause => exact List.prefix_refl _
  | ok result =>
    obtain ⟨a, -, -, -, hnext⟩ :=
      FunctionRegistry.add_eq_ok.mp (hadd.trans (congrArg Except.ok result.eta.symm))
    dsimp only
    rw [hnext]
    exact FunctionRegistry.entries_push _ _

theorem entries_addClass (r : Registry) (c : ClassDeclaration) :
    r.functions.entries.toList <+: (r.addClass c).2.functions.entries.toList := by
  have hgrown := c.setup.entries_run r.functions
  rw [addClass]
  split
  · exact List.prefix_refl _
  · rcases hrun : c.setup.run r.functions with ⟨cause | _, functions⟩ <;> rw [hrun] at hgrown
    · exact FunctionRegistry.entries_truncate hgrown
    · exact hgrown

end Registry

/-! ## Sessions -/

namespace Engine

/-- What a host does with an engine.  A script finds the standard output as others have left it. -/
inductive Command where
  | register (request : Registration)
  | registerClass (c : ClassDeclaration)
  | parse (source : String)
  | run (stdout : Device) (steps : Nat) (p : Program)
  | execute (stdout : Device) (steps : Nat) (source : String)
  | executeBytes (stdout : Device) (steps : Nat) (bytes : ByteArray)
  | takeOutput

def perform (e : Engine) : Command → Engine
  | .register request => (e.register request).2
  | .registerClass c => (e.registerClass c).2
  | .parse source => (e.parse source).2
  | .run stdout steps p => (e.run stdout steps p).2.1
  | .execute stdout steps source => (e.execute stdout steps source).2.1
  | .executeBytes stdout steps bytes => (e.executeBytes stdout steps bytes).2.1
  | .takeOutput => e.takeOutput.2

def performAll (e : Engine) (commands : List Command) : Engine := commands.foldl perform e

/-! Scripts leave the registry and the settings as they are. -/

theorem run_keeps (e : Engine) (stdout : Device) (steps : Nat) (p : Program) :
    (e.run stdout steps p).2.1.registry = e.registry ∧
      (e.run stdout steps p).2.1.options = e.options := by
  rw [run_eq]
  exact ⟨rfl, rfl⟩

theorem execute_keeps (e : Engine) (stdout : Device) (steps : Nat) (source : String) :
    (e.execute stdout steps source).2.1.registry = e.registry ∧
      (e.execute stdout steps source).2.1.options = e.options := by
  rw [execute_eq]
  cases e.gate source with
  | error cause => exact ⟨rfl, rfl⟩
  | ok p => exact run_keeps _ stdout steps p

theorem executeBytes_keeps (e : Engine) (stdout : Device) (steps : Nat) (bytes : ByteArray) :
    (e.executeBytes stdout steps bytes).2.1.registry = e.registry ∧
      (e.executeBytes stdout steps bytes).2.1.options = e.options := by
  rw [executeBytes]
  cases String.fromUTF8? bytes with
  | none => exact ⟨rfl, rfl⟩
  | some source => exact execute_keeps e stdout steps source

/-- No command changes the settings. -/
theorem options_perform (e : Engine) (c : Command) : (e.perform c).options = e.options := by
  cases c with
  | run stdout steps p => exact (e.run_keeps stdout steps p).2
  | execute stdout steps source => exact (e.execute_keeps stdout steps source).2
  | executeBytes stdout steps bytes => exact (e.executeBytes_keeps stdout steps bytes).2
  | _ => rfl

theorem options_performAll (e : Engine) (commands : List Command) :
    (e.performAll commands).options = e.options := by
  induction commands generalizing e with
  | nil => rfl
  | cons c rest ih => exact (ih _).trans (e.options_perform c)

theorem entries_of_registry {e e' : Engine} (h : e'.registry = e.registry) :
    e.registry.functions.entries.toList <+: e'.registry.functions.entries.toList :=
  h ▸ List.prefix_refl _

theorem entries_perform (e : Engine) (c : Command) :
    e.registry.functions.entries.toList <+: (e.perform c).registry.functions.entries.toList := by
  cases c with
  | register request => exact e.registry.entries_add request
  | registerClass c => exact e.registry.entries_addClass c
  | parse source => exact entries_of_registry rfl
  | run stdout steps p => exact entries_of_registry (e.run_keeps stdout steps p).1
  | execute stdout steps source => exact entries_of_registry (e.execute_keeps stdout steps source).1
  | executeBytes stdout steps bytes =>
    exact entries_of_registry (e.executeBytes_keeps stdout steps bytes).1
  | takeOutput => exact entries_of_registry rfl

theorem entries_performAll (e : Engine) (commands : List Command) :
    e.registry.functions.entries.toList <+:
      (e.performAll commands).registry.functions.entries.toList := by
  induction commands generalizing e with
  | nil => exact List.prefix_refl _
  | cons c rest ih => exact (e.entries_perform c).trans (ih _)

/-- A program means the same to two engines. -/
structure RunsAlike (p : Program) (e e' : Engine) : Prop where
  /-- Every handle in its code and in its method tables is that of one function. -/
  handles : ∀ handle, p.Refers handle → ∃ entry,
    e.registry.functions.entry? handle = some entry ∧
      e'.registry.functions.entry? handle = some entry
  /-- It gives the same result or error, and writes the same texts behind what the engine has printed
  and, where the engine repeats it, on the standard output, if this answers alike from then on.
  Nothing else of the engine changes. -/
  runs : ∀ stdout stdout' steps, (e.options.echo = true → stdout'.fresh = stdout.fresh) →
    ∃ x pieces, e.run stdout steps p = (x, e.wrote stdout pieces) ∧
      e'.run stdout' steps p = (x, e'.wrote stdout' pieces)

/-- A program that an engine has compiled runs after anything else that is done with the engine as
it would have run at once. -/
theorem compile_survives {e : Engine} {s : Script} {p : Program} (h : e.compile s = .ok p)
    (later : List Command) : RunsAlike p e (e.performAll later) := by
  have handles : ∀ handle, p.Refers handle → ∃ entry,
      e.registry.functions.entry? handle = some entry ∧
        (e.performAll later).registry.functions.entry? handle = some entry := by
    intro handle hp
    obtain ⟨entry, hentry⟩ := Script.compile_denotes (compile_eq_ok.mp h) hp
    exact ⟨entry, hentry, FunctionRegistry.entry?_of_prefix (e.entries_performAll later) hentry⟩
  have hsame : p.SameNatives e.registry.functions (e.performAll later).registry.functions := by
    intro handle hp
    obtain ⟨entry, hentry, hlater⟩ := handles handle hp
    rw [hentry, hlater]
  refine ⟨handles, fun stdout stdout' steps halike => ?_⟩
  obtain ⟨x, pieces, hrun⟩ := run_alone p e.registry.functions e.options.echo stdout steps
  have hecho : (e.performAll later).options.echo = e.options.echo :=
    congrArg (·.echo) (e.options_performAll later)
  exact ⟨x, pieces, hrun e stdout rfl (fun _ => rfl) fun _ _ => rfl,
    hrun _ stdout' hecho halike hsame⟩

/-- A call that was compiled to a function of any number of arguments keeps to it, although the
engine gets a function of just that number, which the same call compiles to afterwards; and a class
that fails after another registration does not matter. -/
theorem compile_survives_overload :
    let e := (ofRegistry { echo := true } .empty).perform (.register (.variadic "f" fun _ => .fail .output))
    let script := (Script.parse "f(true)").1
    let later := [Command.register (.function "f" (.typed [.any] .unset fun _ => pure ())),
      .registerClass ⟨"A", .request (.variadic "g" fun _ => .fail .output) fun _ =>
        .done (.error (.duplicate "g" .variadic))⟩,
      .execute .reliable 2 "f(true)"]
    ∃ p q, e.compile script = .ok p ∧ RunsAlike p e (e.performAll later) ∧
      (e.performAll later).compile script = .ok q ∧
      p.code = #[.constant 0, .call 0 1] ∧ q.code = #[.constant 0, .call 1 1] := by
  intro e script later
  have hcode : ((e.compile script).toOption.map (·.code)) = some #[.constant 0, .call 0 1] := by
    decide +kernel
  have hlater : (((e.performAll later).compile script).toOption.map (·.code)) =
      some #[.constant 0, .call 1 1] := by
    decide +kernel
  cases hp : e.compile script with
  | error cause =>
    rw [hp] at hcode
    cases hcode
  | ok p =>
    cases hq : (e.performAll later).compile script with
    | error cause =>
      rw [hq] at hlater
      cases hlater
    | ok q =>
      rw [hp] at hcode
      rw [hq] at hlater
      exact ⟨p, q, rfl, compile_survives hp later, rfl, Option.some.inj hcode,
        Option.some.inj hlater⟩

end Engine
end ScriptEngine
