/-
Messages about a script, and the ordered collection every stage reports to.

A stage that meets a fault reports it and goes on, so that one pass lists every
fault.  The collection keeps its messages and, beside them, whether any is an
error or a warning; the counts are readings of the list.
-/
import ScriptEngine.Location

namespace ScriptEngine

/-- How grave a message is.  Only an error keeps a script from running. -/
inductive Severity where
  | note
  | warning
  | error
  deriving DecidableEq, Repr

namespace Severity

def label : Severity → String
  | .note => "NONE"
  | .warning => "WARNING"
  | .error => "ERROR"

def rank : Severity → Nat
  | .note => 0
  | .warning => 1
  | .error => 2

/-- The graver of two severities. -/
def max (a b : Severity) : Severity := if a.rank < b.rank then b else a

end Severity

/-- A message: its severity, a short stable code, its text and its place. -/
structure Diagnostic where
  severity : Severity
  code : String
  text : String
  location : Location
  deriving DecidableEq, Repr

namespace Diagnostic

def line (d : Diagnostic) : String :=
  d.severity.label ++ " [" ++ d.code ++ "]: " ++ d.text ++ " [" ++ d.location.text ++ "]"

def isError (d : Diagnostic) : Bool := d.severity = .error

def isWarning (d : Diagnostic) : Bool := d.severity = .warning

end Diagnostic

/-- The messages reported so far, oldest first, and whether there is an error or a warning among
them. -/
structure Diagnostics where
  messages : List Diagnostic
  hasErrors : Bool
  hasWarnings : Bool
  hasErrors_eq : hasErrors = messages.any Diagnostic.isError
  hasWarnings_eq : hasWarnings = messages.any Diagnostic.isWarning
  deriving DecidableEq, Repr

namespace Diagnostics

def empty : Diagnostics := ⟨[], false, false, rfl, rfl⟩

instance : Inhabited Diagnostics := ⟨empty⟩

def add (ds : Diagnostics) (d : Diagnostic) : Diagnostics where
  messages := ds.messages ++ [d]
  hasErrors := ds.hasErrors || d.isError
  hasWarnings := ds.hasWarnings || d.isWarning
  hasErrors_eq := by simp [ds.hasErrors_eq]
  hasWarnings_eq := by simp [ds.hasWarnings_eq]

/-- Adds messages one after the other. -/
def append (ds : Diagnostics) (more : List Diagnostic) : Diagnostics := more.foldl add ds

/-- Forgets all messages. -/
def reset (_ : Diagnostics) : Diagnostics := empty

def error (ds : Diagnostics) (code text : String) (location : Location) : Diagnostics :=
  ds.add ⟨.error, code, text, location⟩

def warning (ds : Diagnostics) (code text : String) (location : Location) : Diagnostics :=
  ds.add ⟨.warning, code, text, location⟩

def errors (ds : Diagnostics) : List Diagnostic := ds.messages.filter Diagnostic.isError

def warnings (ds : Diagnostics) : List Diagnostic := ds.messages.filter Diagnostic.isWarning

def size (ds : Diagnostics) : Nat := ds.messages.length

def gravest? (ds : Diagnostics) : Option Severity :=
  match ds.messages with
  | [] => none
  | d :: rest => some (rest.foldl (fun s e => s.max e.severity) d.severity)

def render (ds : Diagnostics) : String :=
  String.join (ds.messages.map fun d => d.line ++ "\n")

/-- Collections of the same messages are equal. -/
@[ext] theorem ext_messages {ds es : Diagnostics} (h : ds.messages = es.messages) : ds = es := by
  obtain ⟨messages, hasErrors, hasWarnings, rfl, rfl⟩ := ds
  obtain ⟨messages', hasErrors', hasWarnings', rfl, rfl⟩ := es
  obtain rfl : messages = messages' := h
  rfl

@[simp] theorem messages_append (ds : Diagnostics) (more : List Diagnostic) :
    (ds.append more).messages = ds.messages ++ more := by
  induction more generalizing ds with
  | nil => simp [append]
  | cons d more ih =>
    rw [show ds.append (d :: more) = (ds.add d).append more from rfl, ih]
    simp [add]

theorem hasErrors_eq_false_iff (ds : Diagnostics) : ds.hasErrors = false ↔ ds.errors = [] := by
  simp [hasErrors_eq, errors, List.filter_eq_nil_iff]

theorem hasWarnings_eq_false_iff (ds : Diagnostics) :
    ds.hasWarnings = false ↔ ds.warnings = [] := by
  simp [hasWarnings_eq, warnings, List.filter_eq_nil_iff]

end Diagnostics
end ScriptEngine
