/-
What a script does to its engine.

A script runs only behind a gate: `Engine.gate` gives the program of a text, or why there
is none, and it looks at the text, the settings and the indexes of the registry alone.
What the program then does is fixed by the functions it refers to and, where the engine repeats
what is printed, by how the standard output answers from then on (`Engine.run_alone`): the engine
adds its earlier output in front, and lends nothing else to the run.  What a run writes is added to
the output of the engine also where the standard output fails, and it is sent there as it was
written.
-/
import ScriptEngine.Engine
import ScriptEngine.Proofs.Code.References
import ScriptEngine.Proofs.Run.Appending

namespace ScriptEngine

/-! ## Runs -/

/-- A world without objects and texts, whose output may be repeated on a device. -/
def World.blank (echo : Option Device) : World := .ofOutput { Output.unlimited with echo }

theorem World.fits_blank {before : Past} {echo : Option Device}
    (h : ∀ d, echo = some d → d = before.device.fresh) : (World.blank echo).Fits before :=
  ⟨fun _ _ => rfl, fun d hd => congrArg Device.takes (h d hd)⟩

/-- A run in a world of its own. -/
def Program.alone (p : Program) (functions : FunctionRegistry) (echo : Option Device)
    (steps : Nat) : Machine.Outcome :=
  Machine.run p functions steps (.start p (.blank echo))

namespace Machine.Outcome

/-- What a script gives whose program runs so. -/
def execution : Outcome → Execution
  | finished v w => .value v w.store
  | failed cause _ => .error (.runtime cause)
  | running _ => .unfinished

end Machine.Outcome

namespace Engine

variable {e : Engine} {p : Program} {functions : FunctionRegistry} {steps : Nat} {source : String}
  {stdout : Device}

theorem run_eq (e : Engine) (stdout : Device) (steps : Nat) (p : Program) :
    e.run stdout steps p =
      let o := Machine.run p e.registry.functions steps (.start p (.ofOutput (e.sink stdout)))
      (o.execution, e.leave stdout o.world.output) := by
  unfold run
  dsimp only
  cases Machine.run p e.registry.functions steps (.start p (.ofOutput (e.sink stdout))) <;> rfl

/-- The engine and the standard output after some texts were written. -/
def wrote (e : Engine) (stdout : Device) (pieces : List String) : Engine × Device :=
  ({ e with output := e.output ++ String.join pieces },
    if e.options.echo then { stdout with sent := stdout.sent ++ pieces } else stdout)

theorem wrote_nil (e : Engine) (stdout : Device) : e.wrote stdout [] = (e, stdout) := by
  simp [wrote]

/-- What has been before a run of the engine. -/
def past (e : Engine) (stdout : Device) : Past := ⟨e.output, stdout⟩

/-- A run begins in a blank world behind the past of the engine. -/
theorem start_sink (e : Engine) (stdout : Device) (p : Program) :
    Machine.start p (.ofOutput (e.sink stdout)) =
      (Machine.start p (.blank ((e.echo stdout).map Device.fresh))).behind (e.past stdout) := by
  have htext : e.output ++ "" = e.output := String.append_empty
  have hecho : ((e.echo stdout).map Device.fresh).map
      (fun d => { stdout with sent := stdout.sent ++ d.sent }) = e.echo stdout := by
    rw [echo]
    cases e.options.echo <;> simp [Device.fresh]
  simp only [Machine.start, Machine.behind, World.behind, World.blank, sink, World.ofOutput,
    Output.unlimited, past, htext, hecho]

/-- What is left of an output that began blank and has grown by some texts. -/
theorem leave_grown {after : World} {pieces : List String}
    (h : after.output = ((World.blank ((e.echo stdout).map Device.fresh)).append pieces).output) :
    e.leave stdout (after.behind (e.past stdout)).output = e.wrote stdout pieces := by
  have htext : after.output.text = String.join pieces := by
    rw [h]
    exact String.empty_append
  have hecho : after.output.echo = ((e.echo stdout).map Device.fresh).map
      fun d => { d with sent := d.sent ++ pieces } := by
    rw [h]
    rfl
  rw [leave, wrote, World.behind]
  dsimp only [past]
  rw [htext, hecho, echo]
  cases e.options.echo <;> rfl

/-- A program runs with the same functions on every engine as it does alone, behind the past of the
engine, if the standard output answers alike where it matters. -/
theorem run_alone (p : Program) (functions : FunctionRegistry) (repeats : Bool) (stdout : Device)
    (steps : Nat) : ∃ x pieces, ∀ (e : Engine) (stdout' : Device), e.options.echo = repeats →
      (repeats = true → stdout'.fresh = stdout.fresh) →
        p.SameNatives functions e.registry.functions →
          e.run stdout' steps p = (x, e.wrote stdout' pieces) := by
  obtain ⟨device, hdevice⟩ : ∃ device, device = if repeats then some stdout.fresh else none :=
    ⟨_, rfl⟩
  have hfits : ∀ before : Past, (repeats = true → before.device.fresh = stdout.fresh) →
      (World.blank device).Fits before := by
    refine fun before hbefore => World.fits_blank fun d hd => ?_
    rw [hdevice] at hd
    cases repeats with
    | false => cases hd
    | true => exact (Option.some.inj hd).symm.trans (hbefore rfl).symm
  have hsame : p.SameNatives functions functions := fun _ _ => rfl
  obtain ⟨-, pieces, hpieces⟩ :=
    Machine.run_behind hsame ⟨"", stdout⟩ steps (m := .start p (.blank device)) (hfits _ fun _ => rfl)
  refine ⟨(p.alone functions device steps).execution, pieces, fun e stdout' he halike h => ?_⟩
  obtain rfl : (e.echo stdout').map Device.fresh = device := by
    rw [echo, he, hdevice]
    cases repeats with
    | false => rfl
    | true => exact congrArg some (halike rfl)
  rw [run_eq, start_sink, (Machine.run_behind h (e.past stdout') steps (hfits _ halike)).1,
    ← leave_grown hpieces, Program.alone]
  cases Machine.run p functions steps (.start p (.blank _)) <;> rfl

/-! ## The gate -/

/-- The program of a text, or why there is none. -/
def gate (e : Engine) (source : String) : Except ScriptError Program :=
  match screen e.options (Script.parse source).2 with
  | .error cause => .error cause
  | .ok () => e.compile (Script.parse source).1

theorem compile_eq_ok {s : Script} :
    e.compile s = .ok p ↔ s.compile e.compilerInput = .ok p := by
  unfold compile
  cases s.compile e.compilerInput <;> simp

/-- The engine with the messages about a text. -/
def noting (e : Engine) (source : String) : Engine :=
  { e with diagnostics := (Script.parse source).2 }

theorem parse_eq (e : Engine) (source : String) : e.parse source =
    ((screen e.options (Script.parse source).2).map fun _ => (Script.parse source).1,
      e.noting source) := by
  have hmessages : e.diagnostics.reset.append (Script.parse source).2.messages =
      (Script.parse source).2 :=
    Diagnostics.ext_messages (Diagnostics.messages_append _ _)
  rw [parse]
  dsimp only
  rw [hmessages]
  rfl

/-- A text may run: it has no errors, and no warnings where these count as errors. -/
structure Passes (options : EngineOptions) (ds : Diagnostics) : Prop where
  errors : ds.errors = []
  warnings : options.warningsAsErrors = true → ds.warnings = []

/-- What the gate says of a text. -/
inductive Admission (e : Engine) (script : Script) (ds : Diagnostics) :
    Except ScriptError Program → Prop where
  | errors : 0 < ds.errors.length →
      Admission e script ds (.error (.syntaxErrors ds.errors.length))
  | warnings : ds.errors = [] → e.options.warningsAsErrors = true → 0 < ds.warnings.length →
      Admission e script ds (.error (.warnings ds.warnings.length))
  | unresolved {cause : CompilationError} : Passes e.options ds →
      script.compile e.compilerInput = .error cause →
      Admission e script ds (.error (.compilation cause))
  | program {p : Program} : Passes e.options ds → script.compile e.compilerInput = .ok p →
      Admission e script ds (.ok p)

theorem screen_of_errors {options : EngineOptions} {ds : Diagnostics} (h : ds.errors ≠ []) :
    screen options ds = .error (.syntaxErrors ds.errors.length) := by
  have hhas : ds.hasErrors ≠ false := mt ds.hasErrors_eq_false_iff.mp h
  rw [screen, if_pos (by simpa using hhas)]

theorem screen_of_warnings {options : EngineOptions} {ds : Diagnostics} (h : ds.errors = [])
    (ho : options.warningsAsErrors = true) (hw : ds.warnings ≠ []) :
    screen options ds = .error (.warnings ds.warnings.length) := by
  have hhas : ds.hasWarnings ≠ false := mt ds.hasWarnings_eq_false_iff.mp hw
  rw [screen, if_neg (by simp [ds.hasErrors_eq_false_iff.mpr h]), if_pos (by simpa [ho] using hhas)]

theorem screen_of_passes {options : EngineOptions} {ds : Diagnostics} (h : Passes options ds) :
    screen options ds = .ok () := by
  rw [screen, if_neg (by simp [ds.hasErrors_eq_false_iff.mpr h.errors]), if_neg]
  rw [Bool.and_eq_true]
  rintro ⟨ho, hhas⟩
  rw [ds.hasWarnings_eq_false_iff.mpr (h.warnings ho)] at hhas
  cases hhas

theorem admission (e : Engine) (source : String) :
    Admission e (Script.parse source).1 (Script.parse source).2 (e.gate source) := by
  rw [gate, compile]
  generalize (Script.parse source).1 = script
  generalize (Script.parse source).2 = ds
  by_cases herrors : ds.errors = []
  · by_cases hwarnings : e.options.warningsAsErrors = true ∧ ds.warnings ≠ []
    · rw [screen_of_warnings herrors hwarnings.1 hwarnings.2]
      exact .warnings herrors hwarnings.1 (List.length_pos_iff.mpr hwarnings.2)
    · have hpasses : Passes e.options ds := ⟨herrors, fun ho =>
        Decidable.byContradiction fun hne => hwarnings ⟨ho, hne⟩⟩
      rw [screen_of_passes hpasses]
      cases hcompile : script.compile e.compilerInput with
      | error cause => exact .unresolved hpasses hcompile
      | ok p => exact .program hpasses hcompile
  · rw [screen_of_errors herrors]
    exact .errors (List.length_pos_iff.mpr herrors)

/-- The conditions of the four answers exclude each other. -/
theorem Admission.unique {script : Script} {ds : Diagnostics} {a b : Except ScriptError Program}
    (ha : Admission e script ds a) (hb : Admission e script ds b) : a = b := by
  have hempty : ∀ found : List Diagnostic, found = [] → ¬ 0 < found.length := by simp
  cases ha <;> cases hb <;> grind [Passes]

theorem gate_eq_iff {e : Engine} {source : String} {a : Except ScriptError Program} :
    e.gate source = a ↔ Admission e (Script.parse source).1 (Script.parse source).2 a :=
  ⟨fun h => h ▸ admission e source, fun h => (admission e source).unique h⟩

theorem execute_eq (e : Engine) (stdout : Device) (steps : Nat) (source : String) :
    e.execute stdout steps source =
      match e.gate source with
      | .error cause => (.error cause, e.noting source, stdout)
      | .ok p => (e.noting source).run stdout steps p := by
  rw [execute, parse_eq, gate]
  cases screen e.options (Script.parse source).2 with
  | error cause => rfl
  | ok _ => rfl

/-- What an execution reports before it runs anything. -/
theorem execute_error_iff (cause : ScriptError) (hcause : ∀ r, cause ≠ .runtime r) :
    (e.execute stdout steps source).1 = .error cause ↔ e.gate source = .error cause := by
  rw [execute_eq]
  cases hgate : e.gate source with
  | error found => simp
  | ok p =>
    refine iff_of_false ?_ nofun
    dsimp only
    rw [run_eq]
    cases Machine.run p _ steps _ with
    | failed r w => simpa [Machine.Outcome.execution] using fun h => hcause r h.symm
    | _ => simp [Machine.Outcome.execution]

/-- The gate sees the settings and the indexes of an engine, and nothing else of it. -/
theorem gate_congr {other : Engine} (ho : other.options = e.options)
    (h : other.registry.functions.SameIndexes e.registry.functions) (source : String) :
    other.gate source = e.gate source := by
  unfold gate compile compilerInput
  rw [ho, Script.compile_congr _ h]

/-! ## Executions -/

/-- A refused text runs nothing, so it does not matter what the registered functions do. -/
theorem execute_refused {cause : ScriptError} (h : e.gate source = .error cause) {other : Engine}
    (ho : other.options = e.options)
    (hi : other.registry.functions.SameIndexes e.registry.functions) (stdout : Device)
    (steps : Nat) :
    other.execute stdout steps source = (.error cause, other.noting source, stdout) := by
  rw [execute_eq, gate_congr ho hi, h]

/-- A text with a program runs on an engine of the same settings and functions as the program
does. -/
theorem execute_program (h : e.gate source = .ok p) {other : Engine}
    (ho : other.options = e.options) (hf : other.registry.functions = e.registry.functions)
    (stdout : Device) (steps : Nat) :
    other.execute stdout steps source = (other.noting source).run stdout steps p := by
  rw [execute_eq, gate_congr ho (hf ▸ ⟨rfl, rfl⟩), h]

theorem executeBytes_toUTF8 (e : Engine) (stdout : Device) (steps : Nat) (source : String) :
    e.executeBytes stdout steps source.toUTF8 = e.execute stdout steps source := by
  have hread : String.fromUTF8? source.toUTF8 = some source := dif_pos source.isValidUTF8
  rw [executeBytes, hread]

theorem executeBytes_invalid {bytes : ByteArray} (h : ∀ text : String, text.toUTF8 ≠ bytes)
    (e : Engine) (stdout : Device) (steps : Nat) :
    e.executeBytes stdout steps bytes = (.error .notText, e, stdout) := by
  have hread : String.fromUTF8? bytes = none :=
    dif_neg fun hvalid => h (.fromUTF8 bytes hvalid) rfl
  rw [executeBytes, hread]

/-- What the execution of a text is, in terms of its syntax and of the messages about it. -/
structure Gated (e : Engine) (stdout : Device) (steps : Nat) (source : String) (script : Script)
    (ds : Diagnostics) : Prop where
  syntaxErrors : ∀ n, (e.execute stdout steps source).1 = .error (.syntaxErrors n) ↔
    0 < n ∧ ds.errors.length = n
  warnings : ∀ n, (e.execute stdout steps source).1 = .error (.warnings n) ↔
    ds.errors = [] ∧ e.options.warningsAsErrors = true ∧ 0 < n ∧ ds.warnings.length = n
  compilation : ∀ cause, (e.execute stdout steps source).1 = .error (.compilation cause) ↔
    Passes e.options ds ∧ script.compile e.compilerInput = .error cause
  /-- A text that may not run, or that does not compile, calls nothing and writes nothing: all that
  changes is the messages, and any other functions under the same names leave it at that. -/
  refused : (Passes e.options ds → ∀ p, script.compile e.compilerInput ≠ .ok p) →
    ∃ cause, ∀ other : Engine, other.options = e.options →
      other.registry.functions.SameIndexes e.registry.functions →
        other.execute stdout steps source = (.error cause, { other with diagnostics := ds }, stdout)
  program : ∀ p, Passes e.options ds → script.compile e.compilerInput = .ok p →
    e.execute stdout steps source = { e with diagnostics := ds }.run stdout steps p
  /-- Engines with the same settings and functions give the same result and write the same texts
  behind what they have printed and, where they repeat it, on the standard output, whatever they
  have done before, and whatever was sent to the standard output before if it answers alike from now
  on.  Nothing else of them changes but the messages. -/
  isolated : ∃ x pieces, ∀ (other : Engine) (stdout' : Device), other.options = e.options →
    other.registry.functions = e.registry.functions →
      (e.options.echo = true → stdout'.fresh = stdout.fresh) →
        other.execute stdout' steps source = (x,
          { other with diagnostics := ds, output := other.output ++ String.join pieces },
          if e.options.echo then { stdout' with sent := stdout'.sent ++ pieces } else stdout')
  text : ∀ bytes, source.toUTF8 = bytes →
    e.executeBytes stdout steps bytes = e.execute stdout steps source
  notText : ∀ bytes, (∀ text : String, text.toUTF8 ≠ bytes) →
    e.executeBytes stdout steps bytes = (.error .notText, e, stdout)

theorem execute_gated (e : Engine) (stdout : Device) (steps : Nat) (source : String) :
    Gated e stdout steps source (Script.parse source).1 (Script.parse source).2 := by
  have hgate := admission e source
  constructor
  case syntaxErrors =>
    intro n
    rw [execute_error_iff (.syntaxErrors n) (fun _ => nofun), gate_eq_iff]
    constructor
    · rintro ⟨⟩
      exact ⟨‹_›, rfl⟩
    · rintro ⟨hpos, rfl⟩
      exact .errors hpos
  case warnings =>
    intro n
    rw [execute_error_iff (.warnings n) (fun _ => nofun), gate_eq_iff]
    constructor
    · rintro ⟨⟩
      exact ⟨‹_›, ‹_›, ‹_›, rfl⟩
    · rintro ⟨herrors, ho, hpos, rfl⟩
      exact .warnings herrors ho hpos
  case compilation =>
    intro cause
    rw [execute_error_iff (.compilation cause) (fun _ => nofun), gate_eq_iff]
    constructor
    · rintro ⟨⟩
      exact ⟨‹_›, ‹_›⟩
    · exact fun ⟨hpasses, hcompile⟩ => .unresolved hpasses hcompile
  case refused =>
    intro hno
    cases h : e.gate source with
    | error cause => exact ⟨cause, fun other ho hi => execute_refused h ho hi stdout steps⟩
    | ok p =>
      rw [h] at hgate
      cases hgate with
      | program hpasses hcompile => exact absurd hcompile (hno hpasses p)
  case program =>
    intro p hpasses hcompile
    rw [execute_eq, gate_eq_iff.mpr (.program hpasses hcompile)]
    rfl
  case isolated =>
    cases h : e.gate source with
    | error cause =>
      refine ⟨.error cause, [], fun other stdout' ho hf _ => ?_⟩
      rw [execute_refused h ho (hf ▸ ⟨rfl, rfl⟩), ← ho]
      exact congrArg (Prod.mk (Execution.error cause)) (wrote_nil (other.noting source) stdout').symm
    | ok p =>
      obtain ⟨x, pieces, hrun⟩ :=
        run_alone p e.registry.functions e.options.echo stdout steps
      refine ⟨x, pieces, fun other stdout' ho hf halike => ?_⟩
      have hsame : p.SameNatives e.registry.functions (other.noting source).registry.functions :=
        fun handle _ => congrArg (FunctionRegistry.entry? · handle) hf.symm
      rw [execute_program h ho hf,
        hrun (other.noting source) stdout' (congrArg (·.echo) ho) halike hsame, ← ho]
      rfl
  case text =>
    rintro bytes rfl
    exact executeBytes_toUTF8 e stdout steps source
  case notText => exact fun bytes hbytes => executeBytes_invalid hbytes e stdout steps

end Engine
end ScriptEngine
