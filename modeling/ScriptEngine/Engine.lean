/-
The engine: registering natives, and running scripts from their text.

A script runs only if its text has no error, and none of its references is
unknown.  Each run has objects and variables of its own; what stays in the
engine is the messages about the last text and everything that was printed.
An engine can be set to repeat what scripts print on the standard output, a
device that is not its own: it is given with each run and given back.
-/
import ScriptEngine.Compiler.Compile
import ScriptEngine.Library.Builtin
import ScriptEngine.Machine.Run
import ScriptEngine.Parser.Grammar

namespace ScriptEngine

/-- The settings of an engine. -/
structure EngineOptions where
  /-- Refuse texts with warnings. -/
  warningsAsErrors : Bool := false
  /-- Refuse texts that read a variable before they assign it. -/
  strict : Bool := false
  /-- Repeat on the standard output what scripts print. -/
  echo : Bool := false
  /-- Begin with the library. -/
  library : Bool := true
  deriving DecidableEq, Repr

/-- The detailed text of the settings. -/
def EngineOptions.describe (o : EngineOptions) : String :=
  "EngineOptions \x7b warnings_as_errors: " ++ word o.warningsAsErrors ++
    ", strict_declarations: " ++ word o.strict ++ ", echo_output: " ++ word o.echo ++
    ", load_default_modules: " ++ word o.library ++ " \x7d"
where
  word (b : Bool) : String := if b then "true" else "false"

/-- Why a script gives no result. -/
inductive ScriptError where
  | syntaxErrors (count : Nat)
  | warnings (count : Nat)
  | notText
  | compilation (cause : CompilationError)
  | runtime (cause : RuntimeError)
  deriving Repr

namespace ScriptError

def name : ScriptError → String
  | syntaxErrors _ => "Syntax"
  | warnings _ => "Warnings"
  | notText => "Io"
  | compilation cause => "Compilation/" ++ cause.name
  | runtime cause => "Runtime/" ++ cause.fault.name

def message : ScriptError → String
  | syntaxErrors count => "script has " ++ toString count ++ " syntax error(s)"
  | warnings count =>
    "script has " ++ toString count ++ " warning(s) and warnings are treated as errors"
  | notText => "failed to read script: stream did not contain valid UTF-8"
  | compilation cause => cause.message
  | runtime cause => cause.message

end ScriptError

/-- How the execution of a script ends: with a value among the objects that it left, or with an
error, or not within the steps that it was given. -/
inductive Execution where
  | value (value : Value) (store : Store)
  | error (error : ScriptError)
  | unfinished

/-- An engine: its settings, what is registered, the messages about the last text, and everything
printed so far. -/
structure Engine where
  options : EngineOptions
  registry : Registry
  diagnostics : Diagnostics
  output : String

namespace Engine

def ofRegistry (options : EngineOptions) (registry : Registry) : Engine :=
  ⟨options, registry, .empty, ""⟩

def new (options : EngineOptions) : Except RegistrationError Engine :=
  if options.library then
    match Registry.empty.install with
    | (.ok (), registry) => .ok (ofRegistry options registry)
    | (.error e, _) => .error e
  else .ok (ofRegistry options .empty)

def register (e : Engine) (request : Registration) : Except RegistrationError Nat × Engine :=
  let (answer, registry) := e.registry.add request
  (answer, { e with registry := registry })

def registerClass (e : Engine) (c : ClassDeclaration) : Except RegistrationError Bool × Engine :=
  let (answer, registry) := e.registry.addClass c
  (answer, { e with registry := registry })

def screen (options : EngineOptions) (ds : Diagnostics) : Except ScriptError Unit :=
  if ds.hasErrors then .error (.syntaxErrors ds.errors.length)
  else if options.warningsAsErrors && ds.hasWarnings then .error (.warnings ds.warnings.length)
  else .ok ()

/-- Parses a text.  The messages about it replace those about the last one. -/
def parse (e : Engine) (source : String) : Except ScriptError Script × Engine :=
  let (script, found) := Script.parse source
  let ds := e.diagnostics.reset.append found.messages
  ((screen e.options ds).map fun _ => script, { e with diagnostics := ds })

def compilerInput (e : Engine) : CompilerInput := ⟨e.registry.functions, e.options.strict⟩

def compile (e : Engine) (script : Script) : Except ScriptError Program :=
  match script.compile e.compilerInput with
  | .ok p => .ok p
  | .error cause => .error (.compilation cause)

/-- The device that a run of the engine repeats its output on. -/
def echo (e : Engine) (stdout : Device) : Option Device :=
  if e.options.echo then some stdout else none

/-- The output of a run: everything is added to what was printed before. -/
def sink (e : Engine) (stdout : Device) : Output :=
  { Output.unlimited with text := e.output, echo := e.echo stdout }

/-- What a run leaves behind: how it ended, the engine, and the standard output. -/
abbrev Answer := Execution × Engine × Device

/-- The engine and the standard output after a run that has written to an output. -/
def leave (e : Engine) (stdout : Device) (o : Output) : Engine × Device :=
  ({ e with output := o.text }, o.echo.getD stdout)

def run (e : Engine) (stdout : Device) (steps : Nat) (p : Program) : Answer :=
  match Machine.run p e.registry.functions steps (.start p (.ofOutput (e.sink stdout))) with
  | .finished v w => (.value v w.store, e.leave stdout w.output)
  | .failed cause w => (.error (.runtime cause), e.leave stdout w.output)
  | .running m => (.unfinished, e.leave stdout m.world.output)

def execute (e : Engine) (stdout : Device) (steps : Nat) (source : String) : Answer :=
  match e.parse source with
  | (.error cause, e) => (.error cause, e, stdout)
  | (.ok script, e) =>
    match e.compile script with
    | .error cause => (.error cause, e, stdout)
    | .ok p => e.run stdout steps p

/-- Executes the text that some bytes encode. -/
def executeBytes (e : Engine) (stdout : Device) (steps : Nat) (bytes : ByteArray) : Answer :=
  match String.fromUTF8? bytes with
  | some source => e.execute stdout steps source
  | none => (.error .notText, e, stdout)

def takeOutput (e : Engine) : String × Engine := (e.output, { e with output := "" })

def describe (e : Engine) : String :=
  "Engine \x7b options: " ++ e.options.describe ++ ", functions: " ++
    e.registry.functions.describe ++ ", classes: " ++ e.registry.describeClasses ++
    ", diagnostics: " ++ toString e.diagnostics.size ++ " \x7d"

end Engine
end ScriptEngine
