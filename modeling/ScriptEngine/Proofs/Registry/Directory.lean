/-
The registry is a map from keys to functions.

A request asks for a key, a name with a number of arguments or with any number of them.
`Registry.serveAll` makes any requests one after the other and lists those that were
granted.  The registry then answers every question from this list alone
(`serveAll_answers`).  A key finds its request and no other, because a mangled name is that
of one key, and no key is granted twice.

The entries and the two indexes say the same about the granted requests (`InStep`).  That
is what a registration preserves, and the answers follow from it.
-/
import ScriptEngine.Proofs.Registry.Mangling
import ScriptEngine.Registry.Classes

namespace ScriptEngine

open FunctionRegistry (Addition additionOf)

/-! ## What a request asks for -/

namespace Registration

/-- The key of a request, if its function is of the kind that the request needs. -/
def key? : Registration → Option FunctionKey
  | .function name f => f.arity.count?.map fun n => ⟨name, .fixed n⟩
  | .variadic name _ => some ⟨name, .variadic⟩
  | .method className name f =>
    match f.arity with
    | .fixed (n + 1) => some ⟨methodName className name, .fixed (n + 1)⟩
    | _ => none

/-- The class of a method, and how a script calls the method. -/
def method? : Registration → Option (String × MethodKey)
  | .method className name f =>
    match f.arity with
    | .fixed (n + 1) => some (className, ⟨name, n⟩)
    | _ => none
  | _ => none

/-- The class and the place of a request for a method that a script calls in the given way. -/
def implements? (q : Registration) (key : MethodKey) (handle : Nat) : Option (String × Nat) :=
  match q.method? with
  | some (className, k) => if k = key then some (className, handle) else none
  | none => none

/-- The function that a request brings. -/
def native : Registration → NativeFunction
  | .function _ f => f
  | .variadic _ body => .variadic body
  | .method _ _ f => f

theorem implements?_eq_some {q : Registration} {key : MethodKey} {handle place : Nat}
    {className : String} : q.implements? key handle = some (className, place) ↔
      q.method? = some (className, key) ∧ handle = place := by
  unfold implements?
  cases hm : q.method? with
  | none => simp
  | some m =>
    obtain ⟨c, k⟩ := m
    by_cases hk : k = key <;> simp [hk]

/-- A method has the key of its class, its name and its number of arguments. -/
theorem key?_of_method? {q : Registration} {className : String} {key : MethodKey}
    (h : q.method? = some (className, key)) :
    q.key? = some ⟨methodName className key.method, .fixed (key.argc + 1)⟩ := by
  cases q with
  | function | variadic => cases h
  | method c name f =>
    rcases hf : f.arity with (_ | n) | _ <;> simp [method?, hf] at h
    obtain ⟨rfl, rfl⟩ := h
    simp [key?, hf]

end Registration

theorem additionOf_eq_ok {q : Registration} {a : Addition} :
    additionOf q = .ok a ↔ ∃ key mangled, q.key? = some key ∧ key.mangle = .ok mangled ∧
      a = ⟨⟨key.name, mangled, q.native⟩, q.method?⟩ := by
  have ofKey : ∀ {key method f}, additionOf.ofKey key method f = .ok a ↔
      ∃ mangled, key.mangle = .ok mangled ∧ a = ⟨⟨key.name, mangled, f⟩, method⟩ := by
    intro key method f
    unfold additionOf.ofKey
    cases key.mangle with
    | error e => simp
    | ok mangled => simp [eq_comm]
  cases q with
  | function name f =>
    cases hf : f.arity <;>
      simp [additionOf, Registration.key?, Registration.native, Registration.method?, hf, ofKey,
        Arity.count?]
  | variadic name body =>
    simp [additionOf, Registration.key?, Registration.native, Registration.method?, ofKey]
  | method className method f =>
    rcases hf : f.arity with (_ | n) | _ <;>
      simp [additionOf, Registration.key?, Registration.native, Registration.method?, hf, ofKey]

/-! ## The places of keys and of methods -/

/-- The place of the request that was granted a key. -/
def place? (done : List Registration) (key : FunctionKey) : Option Nat :=
  done.findIdx? fun q => q.key? = some key

/-- The classes whose method a script calls in the given way, each with its place. -/
def methodPlaces (done : List Registration) (key : MethodKey) : List (String × Nat) :=
  done.zipIdx.filterMap fun (q, handle) => q.implements? key handle

theorem methodPlaces_concat (done : List Registration) (q : Registration) (key : MethodKey) :
    methodPlaces (done ++ [q]) key =
      methodPlaces done key ++ (q.implements? key done.length).toList := by
  simp only [methodPlaces, List.zipIdx_append, List.filterMap_append, Nat.zero_add]
  cases h : q.implements? key done.length <;> simp [h]

theorem mem_methodPlaces {done : List Registration} {key : MethodKey} {className : String}
    {handle : Nat} : (className, handle) ∈ methodPlaces done key ↔
      ∃ q, done[handle]? = some q ∧ q.method? = some (className, key) := by
  simp only [methodPlaces, List.mem_filterMap, Prod.exists, List.mem_zipIdx_iff_getElem?,
    Registration.implements?_eq_some]
  constructor
  · rintro ⟨q, place, hq, hmethod, rfl⟩
    exact ⟨q, hq, hmethod⟩
  · rintro ⟨q, hq, hmethod⟩
    exact ⟨q, handle, hq, hmethod, rfl⟩

theorem getElem?_concat_eq_some {α : Type} {xs : List α} {x y : α} {i : Nat} :
    (xs ++ [x])[i]? = some y ↔ xs[i]? = some y ∨ (i = xs.length ∧ y = x) := by
  rcases Nat.lt_trichotomy i xs.length with h | h | h
  · rw [List.getElem?_append_left h]
    simp [Nat.ne_of_lt h]
  · subst h
    simp [eq_comm]
  · rw [List.getElem?_eq_none (by simp; omega), List.getElem?_eq_none (by omega)]
    simp [Nat.ne_of_gt h]

/-! ## One registration -/

theorem MethodIndex.lookup_record (index : MethodIndex) (key k : MethodKey)
    (item : String × Nat) : (index.record key item).lookup k =
      if k = key then some ((index.lookup key).getD [] ++ [item]) else index.lookup k := by
  induction index with
  | nil =>
    by_cases h : k = key
    · simp [record, h]
    · simp [record, List.lookup_cons, beq_false_of_ne h, h]
  | cons first rest ih =>
    obtain ⟨first, items⟩ := first
    by_cases hfirst : first = key
    · subst hfirst
      by_cases h : k = first
      · simp [record, h]
      · simp [record, List.lookup_cons, beq_false_of_ne h, h]
    · rw [record, if_neg hfirst, List.lookup_cons, ih]
      by_cases h : k = key
      · subst h
        simp [List.lookup_cons, beq_false_of_ne (Ne.symm hfirst)]
      · simp [List.lookup_cons, h]

namespace FunctionRegistry

variable {r : FunctionRegistry} {a : Addition}

@[simp] theorem size_push : (r.push a).size = r.size + 1 := Array.size_push _

theorem entry?_push {handle : Nat} : entry? (r.push a) handle =
    if handle = r.size then some a.entry else r.entry? handle := Array.getElem?_push

theorem indexOf?_push {mangled : String} : (r.push a).indexOf? mangled =
    (r.indexOf? mangled).or (if mangled = a.entry.mangled then some r.size else none) := by
  unfold indexOf? push
  rw [List.lookup_append, List.lookup_cons]
  by_cases h : mangled = a.entry.mangled
  · simp [h]
  · simp [beq_false_of_ne h, h]

theorem lookup_methods_push {key : MethodKey} : (r.push a).methods.lookup key =
    match a.method with
    | none => r.methods.lookup key
    | some (className, k) =>
      if key = k then some ((r.methods.lookup k).getD [] ++ [(className, r.size)])
      else r.methods.lookup key := by
  obtain ⟨entry, method⟩ := a
  cases method with
  | none => rfl
  | some m => exact MethodIndex.lookup_record _ _ _ _

theorem add_eq_ok {q : Registration} {handle : Nat} {next : FunctionRegistry} :
    r.add q = .ok (handle, next) ↔ ∃ a, additionOf q = .ok a ∧
      r.indexOf? a.entry.mangled = none ∧ handle = r.size ∧ next = r.push a := by
  unfold add
  cases additionOf q with
  | error e => simp
  | ok a =>
    cases hindex : r.indexOf? a.entry.mangled <;> simp [hindex, eq_comm]

end FunctionRegistry

theorem Registry.add_eq_ok {r next : Registry} {q : Registration} {handle : Nat} :
    r.add q = (.ok handle, next) ↔
      r.functions.add q = .ok (handle, next.functions) ∧ next.classes = r.classes := by
  unfold Registry.add
  cases r.functions.add q with
  | error e => simp
  | ok result =>
    obtain ⟨h, functions⟩ := result
    cases next
    simp [eq_comm, and_assoc]

theorem Registry.add_eq_error {r next : Registry} {q : Registration} {e : RegistrationError}
    (h : r.add q = (.error e, next)) : next = r := by
  unfold Registry.add at h
  cases hadd : r.functions.add q with
  | error e => simp [hadd] at h; exact h.2.symm
  | ok result => simp [hadd] at h

/-! ## Entries and indexes in step -/

/-- The entries and the indexes of a registry are those of the granted requests. -/
structure InStep (r : FunctionRegistry) (done : List Registration) : Prop where
  size : r.size = done.length
  entry : ∀ {handle q}, done[handle]? = some q → ∃ key e, q.key? = some key ∧
    r.entry? handle = some e ∧ key.mangle = .ok e.mangled ∧ e.name = key.name ∧
    e.function = q.native
  names : ∀ {mangled handle}, r.indexOf? mangled = some handle ↔
    ∃ q key, done[handle]? = some q ∧ q.key? = some key ∧ key.mangle = .ok mangled
  methods : ∀ key, (r.methods.lookup key).getD [] = methodPlaces done key
  listed : ∀ key, r.methods.lookup key ≠ some []
  classes : ∀ key, ((methodPlaces done key).map (·.1)).Nodup

namespace InStep

variable {r : FunctionRegistry} {done : List Registration}

theorem empty : InStep .empty [] where
  size := rfl
  entry := nofun
  names := by simp [FunctionRegistry.indexOf?, FunctionRegistry.empty]
  methods _ := rfl
  listed _ := nofun
  classes _ := .nil

/-- A mangled name is taken exactly if its key was granted. -/
theorem indexOf?_eq_none (h : InStep r done) {key : FunctionKey} {mangled : String}
    (hkey : key.mangle = .ok mangled) :
    r.indexOf? mangled = none ↔ ∀ d ∈ done, d.key? ≠ some key := by
  rw [Option.eq_none_iff_forall_not_mem]
  constructor
  · intro hnone d hd hk
    obtain ⟨handle, hhandle⟩ := List.mem_iff_getElem?.mp hd
    exact hnone handle (h.names.mpr ⟨d, key, hhandle, hk, hkey⟩)
  · intro hfree handle hhandle
    obtain ⟨d, other, hd, hk, hother⟩ := h.names.mp hhandle
    rw [FunctionKey.mangle_injective hother hkey] at hk
    exact hfree d (List.mem_of_getElem? hd) hk

theorem push (h : InStep r done) {q : Registration} {a : Addition} (ha : additionOf q = .ok a)
    (hfree : r.indexOf? a.entry.mangled = none) : InStep (r.push a) (done ++ [q]) := by
  obtain ⟨key, mangled, hkey, hmangle, rfl⟩ := additionOf_eq_ok.mp ha
  have hnew := (h.indexOf?_eq_none hmangle).mp hfree
  constructor
  · rw [FunctionRegistry.size_push, h.size, List.length_append]
    rfl
  · intro handle d hd
    rw [FunctionRegistry.entry?_push]
    rcases getElem?_concat_eq_some.mp hd with hd | ⟨rfl, rfl⟩
    · have hlt := (List.getElem?_eq_some_iff.mp hd).1
      rw [if_neg (by rw [h.size]; omega)]
      exact h.entry hd
    · rw [if_pos h.size.symm]
      exact ⟨key, _, hkey, rfl, hmangle, rfl, rfl⟩
  · intro other handle
    rw [FunctionRegistry.indexOf?_push, Option.or_eq_some_iff]
    constructor
    · rintro (hold | ⟨-, hlast⟩)
      · obtain ⟨d, k, hd, hk⟩ := h.names.mp hold
        exact ⟨d, k, getElem?_concat_eq_some.mpr (.inl hd), hk⟩
      · obtain ⟨rfl, rfl⟩ : other = mangled ∧ r.size = handle := by simpa using hlast
        exact ⟨q, key, getElem?_concat_eq_some.mpr (.inr ⟨h.size, rfl⟩), hkey, hmangle⟩
    · rintro ⟨d, k, hd, hk, hother⟩
      rcases getElem?_concat_eq_some.mp hd with hd | ⟨rfl, rfl⟩
      · exact .inl (h.names.mpr ⟨d, k, hd, hk, hother⟩)
      · obtain rfl : key = k := Option.some.inj (hkey.symm.trans hk)
        obtain rfl : mangled = other := Except.ok.inj (hmangle.symm.trans hother)
        exact .inr ⟨hfree, by simp [h.size]⟩
  · intro k
    rw [FunctionRegistry.lookup_methods_push, methodPlaces_concat, ← h.methods, ← h.size]
    unfold Registration.implements?
    cases q.method? with
    | none => simp
    | some m =>
      by_cases hm : m.2 = k
      · simp [hm]
      · simp [hm, Ne.symm hm]
  · intro k
    rw [FunctionRegistry.lookup_methods_push]
    cases q.method? with
    | none => exact h.listed k
    | some m =>
      by_cases hm : k = m.2
      · simp [hm]
      · simpa [hm] using h.listed k
  · intro k
    rw [methodPlaces_concat, List.map_append, List.nodup_append]
    refine ⟨h.classes k, by cases q.implements? k done.length <;> simp, ?_⟩
    -- a class that implements the method has taken the key of the request
    rintro c hc d hd rfl
    obtain ⟨⟨c, handle⟩, hplace, rfl⟩ := List.mem_map.mp hc
    obtain ⟨⟨d, place⟩, hnext, rfl⟩ := List.mem_map.mp hd
    obtain ⟨before, hbefore, hmethod⟩ := mem_methodPlaces.mp hplace
    rw [Option.mem_toList, Registration.implements?_eq_some] at hnext
    refine hnew before (List.mem_of_getElem? hbefore) ?_
    rw [Registration.key?_of_method? hmethod, ← Registration.key?_of_method? hnext.1, hkey]

/-- A key finds the place of the request that was granted it. -/
theorem indexOf?_eq_place? (h : InStep r done) {key : FunctionKey} {mangled : String}
    (hkey : key.mangle = .ok mangled) : r.indexOf? mangled = place? done key := by
  cases hindex : r.indexOf? mangled with
  | none =>
    have hfree := (h.indexOf?_eq_none hkey).mp hindex
    symm
    rw [place?, List.findIdx?_eq_none_iff]
    exact fun d hd => decide_eq_false (hfree d hd)
  | some handle =>
    obtain ⟨q, other, hq, hk, hother⟩ := h.names.mp hindex
    obtain rfl := FunctionKey.mangle_injective hother hkey
    -- the first request with the key is the one with the handle, since the index knows one
    cases hplace : place? done other with
    | none =>
      have hfree := List.findIdx?_eq_none_iff.mp hplace q (List.mem_of_getElem? hq)
      exact absurd hk (of_decide_eq_false hfree)
    | some place =>
      obtain ⟨hlt, hfound, -⟩ := List.findIdx?_eq_some_iff_getElem.mp hplace
      have hfirst := h.names.mpr ⟨done[place], other, List.getElem?_eq_getElem hlt,
        of_decide_eq_true hfound, hother⟩
      rw [← hfirst, hindex]

theorem resolve_eq (h : InStep r done) {name : String} (hname : FunctionKey.ValidName name)
    (argc : Nat) : r.resolve name argc =
      .ok ((place? done ⟨name, .fixed argc⟩).or (place? done ⟨name, .variadic⟩)) := by
  have hfixed := FunctionKey.mangle_valid (k := ⟨name, .fixed argc⟩) hname
  have hany := FunctionKey.mangle_valid (k := ⟨name, .variadic⟩) hname
  unfold FunctionRegistry.resolve
  rw [hfixed, hany]
  simp only [bind, Except.bind, pure, Except.pure, h.indexOf?_eq_place? hfixed,
    h.indexOf?_eq_place? hany]
  cases place? done ⟨name, .fixed argc⟩ <;> rfl

/-- The index holds the mangled names of the entries. -/
theorem indexOf?_iff_entry (h : InStep r done) {mangled : String} {handle : Nat} :
    r.indexOf? mangled = some handle ↔ ∃ e, r.entry? handle = some e ∧ e.mangled = mangled := by
  rw [h.names]
  constructor
  · rintro ⟨q, key, hq, hk, hmangle⟩
    obtain ⟨other, e, hother, he, hname, -⟩ := h.entry hq
    obtain rfl := Option.some.inj (hother.symm.trans hk)
    exact ⟨e, he, Except.ok.inj (hname.symm.trans hmangle)⟩
  · rintro ⟨e, he, rfl⟩
    have hlt : handle < done.length := h.size ▸ (Array.getElem?_eq_some_iff.mp he).1
    have hq := List.getElem?_eq_getElem hlt
    obtain ⟨key, e', hk, he', hmangle, -⟩ := h.entry hq
    obtain rfl := Option.some.inj (he.symm.trans he')
    exact ⟨_, key, hq, hk, hmangle⟩

theorem hasMethod_eq (h : InStep r done) (method : String) (argc : Nat) :
    r.hasMethod method argc = !(methodPlaces done ⟨method, argc⟩).isEmpty := by
  rw [FunctionRegistry.hasMethod, ← h.methods]
  cases hlookup : r.methods.lookup ⟨method, argc⟩ with
  | none => rfl
  | some items =>
    cases items with
    | nil => exact absurd hlookup (h.listed ⟨method, argc⟩)
    | cons => rfl

/-- A request is granted exactly if it has a valid key that no request before it was granted. -/
theorem granted_iff (h : InStep r done) (q : Registration) : (∃ result, r.add q = .ok result) ↔
    ∃ key, q.key? = some key ∧ FunctionKey.ValidName key.name ∧
      ∀ d ∈ done, d.key? ≠ some key := by
  constructor
  · rintro ⟨⟨handle, next⟩, hadd⟩
    obtain ⟨a, ha, hfree, -⟩ := FunctionRegistry.add_eq_ok.mp hadd
    obtain ⟨key, mangled, hkey, hmangle, rfl⟩ := additionOf_eq_ok.mp ha
    exact ⟨key, hkey, FunctionKey.validName_of_mangle hmangle,
      (h.indexOf?_eq_none hmangle).mp hfree⟩
  · rintro ⟨key, hkey, hname, hnew⟩
    have hmangle := FunctionKey.mangle_valid hname
    exact ⟨_, FunctionRegistry.add_eq_ok.mpr ⟨_, additionOf_eq_ok.mpr ⟨key, _, hkey, hmangle, rfl⟩,
      (h.indexOf?_eq_none hmangle).mpr hnew, rfl, rfl⟩⟩

end InStep

/-! ## Requests one after the other -/

namespace Registry

/-- One more request to a registry, with the requests granted so far. -/
def serve (s : Registry × List Registration) (q : Registration) :
    Registry × List Registration :=
  match s.1.add q with
  | (.ok _, next) => (next, s.2 ++ [q])
  | (.error _, next) => (next, s.2)

/-- The registry after some requests, and those that it granted, oldest first. -/
def serveAll (requests : List Registration) : Registry × List Registration :=
  requests.foldl serve (.empty, [])

theorem inStep_serve {s : Registry × List Registration} (h : InStep s.1.functions s.2)
    (q : Registration) : InStep (serve s q).1.functions (serve s q).2 := by
  unfold serve
  split
  · next handle next hadd =>
    obtain ⟨a, ha, hfree, -, hnext⟩ := FunctionRegistry.add_eq_ok.mp (add_eq_ok.mp hadd).1
    simpa only [hnext] using h.push ha hfree
  · next e next hadd =>
    rw [add_eq_error hadd]
    exact h

theorem inStep_serveAll (requests : List Registration) :
    InStep (serveAll requests).1.functions (serveAll requests).2 := by
  suffices ∀ s : Registry × List Registration, InStep s.1.functions s.2 →
      InStep (requests.foldl serve s).1.functions (requests.foldl serve s).2 from this _ .empty
  induction requests with
  | nil => exact fun s h => h
  | cons q rest ih => exact fun s h => ih _ (inStep_serve h q)

/-- The registry is the map from the keys of the granted requests to their places. -/
structure Answers (r : Registry) (done : List Registration) : Prop where
  /-- A request is granted exactly if it has a valid key that was not granted before. -/
  grants : ∀ q, (∃ handle next, r.add q = (.ok handle, next)) ↔
    ∃ key, q.key? = some key ∧ FunctionKey.ValidName key.name ∧ ∀ d ∈ done, d.key? ≠ some key
  handle : ∀ {q handle next}, r.add q = (.ok handle, next) → handle = done.length
  refuses : ∀ {q e next}, r.add q = (.error e, next) → next = r
  size : r.functions.size = done.length
  entry : ∀ {handle q}, done[handle]? = some q → ∃ key e, q.key? = some key ∧
    r.functions.entry? handle = some e ∧ key.mangle = .ok e.mangled ∧ e.name = key.name ∧
    e.function = q.native
  /-- A call reaches the function for exactly its number of arguments, or else the one for any
  number. -/
  resolve : ∀ {name}, FunctionKey.ValidName name → ∀ argc, r.functions.resolve name argc =
    .ok ((place? done ⟨name, .fixed argc⟩).or (place? done ⟨name, .variadic⟩))
  index : ∀ {mangled handle}, r.functions.indexOf? mangled = some handle ↔
    ∃ e, r.functions.entry? handle = some e ∧ e.mangled = mangled
  implementations : ∀ method argc,
    r.functions.implementations method argc = methodPlaces done ⟨method, argc⟩
  hasMethod : ∀ method argc,
    r.functions.hasMethod method argc = !(methodPlaces done ⟨method, argc⟩).isEmpty
  classes : ∀ key, ((methodPlaces done key).map (·.1)).Nodup

/-- After any requests, the registry answers from the list of those it granted. -/
theorem serveAll_answers (requests : List Registration) :
    Answers (serveAll requests).1 (serveAll requests).2 := by
  have h := inStep_serveAll requests
  constructor
  case grants =>
    intro q
    rw [← h.granted_iff]
    constructor
    · rintro ⟨handle, next, hadd⟩
      exact ⟨_, (add_eq_ok.mp hadd).1⟩
    · rintro ⟨⟨handle, functions⟩, hadd⟩
      exact ⟨handle, ⟨functions, _⟩, add_eq_ok.mpr ⟨hadd, rfl⟩⟩
  case handle =>
    intro q handle next hadd
    obtain ⟨-, -, -, hhandle, -⟩ := FunctionRegistry.add_eq_ok.mp (add_eq_ok.mp hadd).1
    rw [hhandle, h.size]
  case refuses => exact add_eq_error
  case size => exact h.size
  case entry => exact h.entry
  case resolve => exact h.resolve_eq
  case index => exact h.indexOf?_iff_entry
  case implementations => exact fun method argc => h.methods ⟨method, argc⟩
  case hasMethod => exact h.hasMethod_eq
  case classes => exact h.classes

end Registry

end ScriptEngine
