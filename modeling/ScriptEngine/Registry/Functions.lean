/-
The registered functions.

The registry lists its entries in the order of registration, and a handle is the
place of an entry in that list.  Two indexes stand beside the entries: one finds a
function by its mangled name, the other finds the classes that implement a
method.  A registration appends to all three, and taking registrations back cuts
all three, so every handle in an index stays that of an entry.
-/
import ScriptEngine.Native.Function
import ScriptEngine.Word

namespace ScriptEngine

/-- A method as a script calls it: its name and the number of its arguments.  The receiver is not
counted. -/
structure MethodKey where
  method : String
  argc : Nat
  deriving DecidableEq, Repr

/-- A registered function: its name, its mangled name, and what it does. -/
structure Entry where
  name : String
  mangled : String
  function : NativeFunction

/-- The classes that implement each method, each class with its function, in the order of
registration. -/
abbrev MethodIndex := List (MethodKey × List (String × Nat))

namespace MethodIndex

/-- Adds a class to those that implement a method. -/
def record (key : MethodKey) (item : String × Nat) : MethodIndex → MethodIndex
  | [] => [(key, [item])]
  | (k, items) :: rest =>
    if k = key then (k, items ++ [item]) :: rest else (k, items) :: record key item rest

/-- The functions before a handle alone.  A method that no class is left for is forgotten. -/
def cut (count : Nat) : MethodIndex → MethodIndex
  | [] => []
  | (k, items) :: rest =>
    let kept := items.filter (·.2 < count)
    if kept.isEmpty then cut count rest else (k, kept) :: cut count rest

theorem mem_record {key : MethodKey} {item : String × Nat} {index : MethodIndex}
    {m : MethodKey × List (String × Nat)} (h : m ∈ index.record key item) :
    ∀ i ∈ m.2, i = item ∨ ∃ m' ∈ index, i ∈ m'.2 := by
  induction index with
  | nil =>
    rw [List.mem_singleton.mp h]
    exact fun i hi => .inl (List.mem_singleton.mp hi)
  | cons first rest ih =>
    have old : ∀ {m : MethodKey × List (String × Nat)}, m ∈ first :: rest → ∀ i ∈ m.2,
        i = item ∨ ∃ m' ∈ first :: rest, i ∈ m'.2 := fun hm i hi => .inr ⟨_, hm, hi⟩
    rw [record] at h
    split at h
    · rcases List.mem_cons.mp h with rfl | h
      · intro i hi
        rcases List.mem_append.mp hi with hi | hi
        · exact old List.mem_cons_self i hi
        · exact .inl (List.mem_singleton.mp hi)
      · exact old (List.mem_cons_of_mem _ h)
    · rcases List.mem_cons.mp h with rfl | h
      · exact old List.mem_cons_self
      · intro i hi
        rcases ih h i hi with rfl | ⟨m', hm', hi'⟩
        · exact .inl rfl
        · exact .inr ⟨m', List.mem_cons_of_mem _ hm', hi'⟩

theorem lt_of_mem_cut {count : Nat} {index : MethodIndex} {m : MethodKey × List (String × Nat)}
    (h : m ∈ index.cut count) : ∀ i ∈ m.2, i.2 < count := by
  induction index with
  | nil => cases h
  | cons first rest ih =>
    rw [cut] at h
    split at h
    · exact ih h
    · rcases List.mem_cons.mp h with rfl | h
      · exact fun i hi => of_decide_eq_true (List.mem_filter.mp hi).2
      · exact ih h

end MethodIndex

/-- The kinds of functions that a registration can require. -/
inductive AdapterKind where
  | fixedArity
  | receiverFirst
  deriving DecidableEq, Repr

def AdapterKind.text : AdapterKind → String
  | fixedArity => "fixed-arity"
  | receiverFirst => "receiver-first fixed-arity"

/-- Why a registration is refused. -/
inductive RegistrationError where
  | mangle (cause : MangleError)
  | duplicate (name : String) (arity : Arity)
  | wrongArity (name : String) (expected : AdapterKind)
  deriving DecidableEq, Repr

namespace RegistrationError

def name : RegistrationError → String
  | mangle cause => "Mangle/" ++ cause.name
  | duplicate .. => "DuplicateFunction"
  | wrongArity .. => "WrongArityKind"

def message : RegistrationError → String
  | mangle cause => cause.message
  | duplicate name arity => "function '" ++ name ++ "/" ++ arity.text ++ "' is already registered"
  | wrongArity name expected =>
    "function '" ++ name ++ "': expected a " ++ expected.text ++ " adapter"

end RegistrationError

inductive Registration where
  | function (name : String) (function : NativeFunction)
  | variadic (name : String) (body : List Value → Action Value)
  | method (className method : String) (function : NativeFunction)

/-- The name under which a method is registered. -/
def methodName (className method : String) : String := className ++ "_" ++ method

/-- The registered functions, oldest first, with their handles by mangled name and the classes by
method. -/
structure FunctionRegistry where
  entries : Array Entry
  names : List (String × Nat)
  methods : MethodIndex
  named : ∀ p ∈ names, ∃ e, entries[p.2]? = some e ∧ e.mangled = p.1
  listed : ∀ m ∈ methods, ∀ i ∈ m.2, i.2 < entries.size

namespace FunctionRegistry

def empty : FunctionRegistry := ⟨#[], [], [], nofun, nofun⟩

instance : Inhabited FunctionRegistry := ⟨empty⟩

def size (r : FunctionRegistry) : Nat := r.entries.size

def indexOf? (r : FunctionRegistry) (mangled : String) : Option Nat := r.names.lookup mangled

/-- What a request adds: an entry, and for a method the class and how a script calls it. -/
structure Addition where
  entry : Entry
  method : Option (String × MethodKey)

/-- What a request would add, apart from the check for a duplicate. -/
def additionOf : Registration → Except RegistrationError Addition
  | .function name f =>
    match f.arity with
    | .variadic => .error (.wrongArity name .fixedArity)
    | .fixed n => ofKey ⟨name, .fixed n⟩ none f
  | .variadic name body => ofKey ⟨name, .variadic⟩ none (.variadic body)
  | .method className method f =>
    match f.arity with
    | .fixed (n + 1) =>
      ofKey ⟨methodName className method, .fixed (n + 1)⟩ (some (className, ⟨method, n⟩)) f
    | _ => .error (.wrongArity (methodName className method) .receiverFirst)
where
  /-- The addition of a function under a key. -/
  ofKey (key : FunctionKey) (method : Option (String × MethodKey)) (f : NativeFunction) :
      Except RegistrationError Addition :=
    match key.mangle with
    | .ok mangled => .ok ⟨⟨key.name, mangled, f⟩, method⟩
    | .error e => .error (.mangle e)

/-- The registry with one more function at the end. -/
def push (r : FunctionRegistry) (a : Addition) : FunctionRegistry where
  entries := r.entries.push a.entry
  names := r.names ++ [(a.entry.mangled, r.size)]
  methods :=
    match a.method with
    | none => r.methods
    | some (className, key) => r.methods.record key (className, r.size)
  named := by
    intro p hp
    rcases List.mem_append.mp hp with hp | hp
    · obtain ⟨e, he, hname⟩ := r.named p hp
      have hlt : p.2 < r.entries.size := (Array.getElem?_eq_some_iff.mp he).1
      exact ⟨e, by rw [Array.getElem?_push_lt hlt, ← Array.getElem?_eq_getElem hlt, he], hname⟩
    · rw [List.mem_singleton.mp hp]
      exact ⟨a.entry, Array.getElem?_push_size, rfl⟩
  listed := by
    intro m hm i hi
    rw [Array.size_push]
    have old : ∀ {m : MethodKey × List (String × Nat)}, m ∈ r.methods → i ∈ m.2 →
        i.2 < r.entries.size + 1 := fun hm hi => Nat.lt_succ_of_lt (r.listed _ hm i hi)
    split at hm
    · exact old hm hi
    · rcases MethodIndex.mem_record hm i hi with rfl | ⟨m', hm', hi'⟩
      · exact Nat.lt_succ_self _
      · exact old hm' hi'

/-- Registers a function and gives its handle.  A mangled name can be taken only once. -/
def add (r : FunctionRegistry) (request : Registration) :
    Except RegistrationError (Nat × FunctionRegistry) :=
  match additionOf request with
  | .error e => .error e
  | .ok a =>
    match r.indexOf? a.entry.mangled with
    | some _ => .error (.duplicate a.entry.name a.entry.function.arity)
    | none => .ok (r.size, r.push a)

/-- A name that none of the entries from a handle on has is that of an entry before. -/
theorem named_before {r : FunctionRegistry} {count : Nat} {p : String × Nat} (hp : p ∈ r.names)
    (hkept : ∀ e ∈ r.entries.toList.drop count, e.mangled ≠ p.1) :
    p.2 < count ∧ ∃ e, r.entries[p.2]? = some e ∧ e.mangled = p.1 := by
  obtain ⟨e, he, hname⟩ := r.named p hp
  refine ⟨?_, e, he, hname⟩
  rcases Nat.lt_or_ge p.2 count with hlt | hge
  · exact hlt
  · obtain ⟨hsize, hget⟩ := Array.getElem?_eq_some_iff.mp he
    have hmem : e ∈ r.entries.toList.drop count := by
      rw [List.mem_drop_iff_getElem]
      exact ⟨p.2 - count, by rw [Array.length_toList]; omega,
        by simpa [Nat.add_sub_cancel' hge] using hget⟩
    exact absurd hname (hkept e hmem)

/-- The first registrations alone. -/
def truncate (r : FunctionRegistry) (count : Nat) : FunctionRegistry :=
  if h : r.size ≤ count then r
  else
    { entries := r.entries.take count
      names := r.names.filter fun p => (r.entries.toList.drop count).all (·.mangled ≠ p.1)
      methods := r.methods.cut count
      named := by
        intro p hp
        obtain ⟨hp, hkept⟩ := List.mem_filter.mp hp
        obtain ⟨hlt, e, he, hname⟩ := named_before hp (by simpa using hkept)
        obtain ⟨hsize, hget⟩ := Array.getElem?_eq_some_iff.mp he
        refine ⟨e, ?_, hname⟩
        rw [Array.take_eq_extract, Array.getElem?_extract_of_lt (by omega)]
        simp only [Nat.zero_add, hget]
      listed := by
        intro m hm i hi
        have hlt := MethodIndex.lt_of_mem_cut hm i hi
        unfold size at h
        rw [Array.take_eq_extract, Array.size_extract]
        omega }

/-- The function that a call reaches: the one for exactly that number of arguments, or else the one
for any number. -/
def resolve (r : FunctionRegistry) (name : String) (argc : Nat) :
    Except MangleError (Option Nat) := do
  match r.indexOf? (← FunctionKey.mangle ⟨name, .fixed argc⟩) with
  | some handle => pure (some handle)
  | none => pure (r.indexOf? (← FunctionKey.mangle ⟨name, .variadic⟩))

/-- The function under the joined name of a class and a method.  It takes the receiver besides the
arguments, and the lookup breaks off where these are too many to count. -/
def indexOfMethod? (r : FunctionRegistry) (className method : String) (argc : Nat) :
    Except CountOverflow (Option Nat) :=
  match countWithReceiver argc with
  | .error e => .error e
  | .ok count =>
    match FunctionKey.mangle ⟨methodName className method, .fixed count⟩ with
    | .ok mangled => .ok (r.indexOf? mangled)
    | .error _ => .ok none

/-- The classes that implement a method, each with its function, in the order of registration. -/
def implementations (r : FunctionRegistry) (method : String) (argc : Nat) :
    List (String × Nat) := (r.methods.lookup ⟨method, argc⟩).getD []

def hasMethod (r : FunctionRegistry) (method : String) (argc : Nat) : Bool :=
  (r.methods.lookup ⟨method, argc⟩).isSome

def entry? (r : FunctionRegistry) (handle : Nat) : Option Entry := r.entries[handle]?

def describe (r : FunctionRegistry) : String :=
  "FunctionRegistry \x7b count: " ++ toString r.size ++ ", functions: [" ++
    ", ".intercalate (r.entries.toList.map fun e => Text.quote e.mangled) ++ "] \x7d"

end FunctionRegistry

def handleText (handle : Nat) : String := "#" ++ toString handle

end ScriptEngine
