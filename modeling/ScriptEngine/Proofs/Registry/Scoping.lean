/-
Methods in the scope of their class.

A method is registered under the name of its class and its own name, joined by a bar, and
beside that its class is listed for the method.  Both are kept in step, so the lookup by
the joined name and the table of a call agree, unless a function that is not that method
has taken the joined name (`Registration.Clashes`): one that was registered under the very
name, a constructor for example, or a method of another class whose names join to the same
text.  Names that hold a bar themselves can be cut in more than one place, and only there
do the methods of two classes clash.
-/
import ScriptEngine.Proofs.Code.Tables
import ScriptEngine.Proofs.Registry.Rollback
import ScriptEngine.Proofs.Runs
import ScriptEngine.Registry.Members

namespace ScriptEngine

open FunctionRegistry (additionOf)

/-! ## Joined names -/

theorem methodName_toList (className method : String) :
    (methodName className method).toList = className.toList ++ '_' :: method.toList := by
  simp [methodName]

/-- A class joins to different names with different methods. -/
theorem methodName_right {className method other : String}
    (h : methodName className method = methodName className other) : method = other := by
  have hchars := congrArg String.toList h
  rw [methodName_toList, methodName_toList] at hchars
  exact String.toList_inj.mp (List.cons.inj (List.append_cancel_left hchars)).2

/-- Class names without a bar end at the first bar of a joined name. -/
theorem methodName_left {className method other name : String} (hclass : '_' ∉ className.toList)
    (hother : '_' ∉ other.toList) (h : methodName className method = methodName other name) :
    className = other := by
  have before : ∀ {c m : String}, '_' ∉ c.toList →
      (methodName c m).toList.takeWhile (· ≠ '_') = c.toList := by
    intro c m hc
    rw [methodName_toList]
    refine (takeWhile_stop (fun d hd => ?_) ?_).1
    · exact decide_eq_true fun hd' => hc (hd' ▸ hd)
    · rintro d ⟨⟩
      rfl
  rw [← String.toList_inj, ← before (m := method) hclass, h, before hother]

/-! ## Requests for one key -/

namespace Registration

/-- A request for the key of a method that is not a request for that method. -/
def Clashes (q : Registration) (className : String) (key : MethodKey) : Prop :=
  q.key? = some ⟨methodName className key.method, .fixed (key.argc + 1)⟩ ∧
    q.method? ≠ some (className, key)

theorem key?_iff {q : Registration} {className : String} {key : MethodKey} :
    q.key? = some ⟨methodName className key.method, .fixed (key.argc + 1)⟩ ↔
      q.method? = some (className, key) ∨ q.Clashes className key := by
  constructor
  · intro h
    by_cases hm : q.method? = some (className, key)
    · exact .inl hm
    · exact .inr ⟨h, hm⟩
  · rintro (h | h)
    · exact key?_of_method? h
    · exact h.1

/-- What clashes with a method has the joined name itself, or is a method of another class, and
then one of the two class names holds a bar. -/
theorem Clashes.cases {q : Registration} {className : String} {key : MethodKey}
    (h : q.Clashes className key) :
    (∃ f, q = .function (methodName className key.method) f) ∨
      ∃ other name f, q = .method other name f ∧ other ≠ className ∧
        methodName other name = methodName className key.method ∧
        ('_' ∈ other.toList ∨ '_' ∈ className.toList) := by
  obtain ⟨hkey, hmethod⟩ := h
  cases q with
  | function name f =>
    cases hf : f.arity <;> simp [key?, hf, Arity.count?] at hkey
    exact .inl ⟨f, by rw [hkey.1]⟩
  | variadic name body => simp [key?] at hkey
  | method other name f =>
    rcases hf : f.arity with (_ | n) | _ <;> simp [key?, hf] at hkey
    obtain ⟨hname, rfl⟩ := hkey
    have hother : other ≠ className := by
      rintro rfl
      exact hmethod (by simp [method?, hf, methodName_right hname])
    refine .inr ⟨other, name, f, rfl, hother, hname, ?_⟩
    refine Decidable.or_iff_not_imp_left.mpr fun hleft => Decidable.byContradiction fun hright => ?_
    exact hother (methodName_left hleft hright hname)

theorem native_arity {q : Registration} {key : FunctionKey} (h : q.key? = some key) :
    q.native.arity = key.arity := by
  cases q with
  | function name f =>
    cases hf : f.arity <;> simp [key?, hf, Arity.count?] at h
    rw [← h]
    exact hf
  | variadic name body =>
    cases h
    rfl
  | method c name f =>
    rcases hf : f.arity with (_ | n) | _ <;> simp [key?, hf] at h
    rw [← h]
    exact hf

end Registration

theorem additionOf_ne_duplicate {q : Registration} {name : String} {arity : Arity} :
    additionOf q ≠ .error (.duplicate name arity) := by
  have ofKey : ∀ {key method f}, additionOf.ofKey key method f ≠ .error (.duplicate name arity) := by
    intro key method f
    unfold additionOf.ofKey
    cases key.mangle <;> simp
  cases q with
  | function _ f => cases hf : f.arity <;> simp [additionOf, hf, ofKey]
  | variadic _ body => exact ofKey
  | method _ _ f => rcases hf : f.arity with (_ | n) | _ <;> simp [additionOf, hf, ofKey]

/-! ## Lookups by joined name -/

/-- A lookup whose arguments can be counted with the receiver gives an answer: what the mangled
joined name finds, if that is a name at all. -/
theorem FunctionRegistry.indexOfMethod?_eq (r : FunctionRegistry) (className method : String)
    {argc : Nat} (hargc : argc + 1 < wordLimit) :
    r.indexOfMethod? className method argc =
      .ok ((FunctionKey.mangle ⟨methodName className method, .fixed (argc + 1)⟩).toOption.bind
        r.indexOf?) := by
  unfold indexOfMethod?
  rw [countWithReceiver_of_lt hargc]
  dsimp only
  cases FunctionKey.mangle ⟨methodName className method, .fixed (argc + 1)⟩ <;> rfl

namespace InStep

variable {r : FunctionRegistry} {done : List Registration}

/-- A request is refused as a duplicate of its key exactly if the key was granted before. -/
theorem duplicate_iff (h : InStep r done) {q : Registration} {key : FunctionKey}
    (hkey : q.key? = some key) {name : String} {arity : Arity} :
    r.add q = .error (.duplicate name arity) ↔
      (key.name = name ∧ key.arity = arity) ∧ ∃ d ∈ done, d.key? = some key := by
  unfold FunctionRegistry.add
  cases ha : additionOf q with
  | error e =>
    refine iff_of_false (fun he => ?_) ?_
    · rw [Except.error.inj he] at ha
      exact additionOf_ne_duplicate ha
    · rintro ⟨-, d, hd, hk⟩
      obtain ⟨handle, hhandle⟩ := List.mem_iff_getElem?.mp hd
      obtain ⟨key', e', hk', -, hmangle, -⟩ := h.entry hhandle
      obtain rfl := Option.some.inj (hk.symm.trans hk')
      rw [additionOf_eq_ok.mpr ⟨key, _, hkey, hmangle, rfl⟩] at ha
      cases ha
  | ok a =>
    obtain ⟨key', mangled, hk, hmangle, rfl⟩ := additionOf_eq_ok.mp ha
    obtain rfl := Option.some.inj (hk.symm.trans hkey)
    have hfree := h.indexOf?_eq_none hmangle
    cases hindex : r.indexOf? mangled with
    | none =>
      refine iff_of_false (by simp [hindex]) ?_
      rintro ⟨-, d, hd, hk⟩
      exact hfree.mp hindex d hd hk
    | some handle =>
      have hgranted : ∃ d ∈ done, d.key? = some key' := by
        refine Decidable.byContradiction fun hnone => ?_
        rw [hfree.mpr fun d hd hk => hnone ⟨d, hd, hk⟩] at hindex
        cases hindex
      simp [hindex, Registration.native_arity hkey, hgranted]

/-- A key is granted once. -/
theorem place_unique (h : InStep r done) {q q' : Registration} {place other : Nat}
    {key : FunctionKey} (hq : done[place]? = some q) (hkey : q.key? = some key)
    (hq' : done[other]? = some q') (hkey' : q'.key? = some key) : place = other := by
  obtain ⟨found, e, hfound, -, hmangle, -⟩ := h.entry hq
  obtain rfl := Option.some.inj (hkey.symm.trans hfound)
  have hindex : r.indexOf? e.mangled = some place := h.names.mpr ⟨q, key, hq, hkey, hmangle⟩
  rw [h.names.mpr ⟨q', key, hq', hkey', hmangle⟩] at hindex
  exact (Option.some.inj hindex).symm

theorem indexOfMethod?_iff (h : InStep r done) {className method : String} {argc handle : Nat}
    (hargc : argc + 1 < wordLimit) :
    r.indexOfMethod? className method argc = .ok (some handle) ↔ ∃ q, done[handle]? = some q ∧
      q.key? = some ⟨methodName className method, .fixed (argc + 1)⟩ := by
  rw [FunctionRegistry.indexOfMethod?_eq r className method hargc, Except.ok.injEq]
  cases hmangle : FunctionKey.mangle ⟨methodName className method, .fixed (argc + 1)⟩ with
  | error e =>
    refine iff_of_false nofun ?_
    rintro ⟨q, hq, hk⟩
    obtain ⟨key, e', hk', -, hvalid, -⟩ := h.entry hq
    obtain rfl := Option.some.inj (hk.symm.trans hk')
    rw [hmangle] at hvalid
    cases hvalid
  | ok mangled =>
    refine h.names.trans ⟨?_, ?_⟩
    · rintro ⟨q, key, hq, hk, hmangled⟩
      rw [FunctionKey.mangle_injective hmangled hmangle] at hk
      exact ⟨q, hq, hk⟩
    · rintro ⟨q, hq, hk⟩
      exact ⟨q, _, hq, hk, hmangle⟩

theorem implementations_eq (h : InStep r done) (method : String) (argc : Nat) :
    r.implementations method argc = methodPlaces done ⟨method, argc⟩ := h.methods ⟨method, argc⟩

theorem implementations_iff (h : InStep r done) {className : String} {key : MethodKey}
    {handle : Nat} : (className, handle) ∈ r.implementations key.method key.argc ↔
      ∃ q, done[handle]? = some q ∧ q.method? = some (className, key) := by
  rw [h.implementations_eq, mem_methodPlaces]

end InStep

theorem lookup_eq_some_iff_mem {β : Type} {xs : List (String × β)} (h : (xs.map (·.1)).Nodup)
    {a : String} {b : β} : xs.lookup a = some b ↔ (a, b) ∈ xs := by
  constructor
  · intro hlookup
    obtain ⟨front, back, rfl, -⟩ := List.lookup_eq_some_iff.mp hlookup
    simp
  · intro hmem
    obtain ⟨front, back, rfl⟩ := List.append_of_mem hmem
    refine List.lookup_eq_some_iff.mpr ⟨front, back, rfl, fun entry hentry => ?_⟩
    rw [List.map_append, List.nodup_append] at h
    exact bne_iff_ne.mpr (h.2.2 entry.1 (List.mem_map_of_mem hentry) a (by simp)).symm

/-- A class is listed for a method once, so the table of a call has for it what is listed. -/
theorem InStep.handleFor?_iff {r : FunctionRegistry} {done : List Registration} (h : InStep r done)
    {className method : String} {argc handle : Nat} :
    (Compiler.tableOf r method argc).handleFor? className = some handle ↔
      (className, handle) ∈ r.implementations method argc := by
  have hclasses : (((r.implementations method argc).reverse).map (·.1)).Nodup := by
    rw [List.map_reverse, h.implementations_eq]
    exact List.pairwise_reverse.mpr ((h.classes ⟨method, argc⟩).imp Ne.symm)
  rw [Compiler.handleFor?_tableOf, lookup_eq_some_iff_mem hclasses, List.mem_reverse]

/-! ## Methods of one class -/

/-- Another function has taken the joined name of a method. -/
def Taken (done : List Registration) (className : String) (key : MethodKey) : Prop :=
  ∃ q ∈ done, q.Clashes className key

namespace InStep

variable {r : FunctionRegistry} {done : List Registration} {className : String} {key : MethodKey}

/-- The joined name was granted to the method or to another function. -/
theorem granted_iff_listed (h : InStep r done) :
    (∃ d ∈ done, d.key? = some ⟨methodName className key.method, .fixed (key.argc + 1)⟩) ↔
      (∃ handle, (className, handle) ∈ r.implementations key.method key.argc) ∨
        Taken done className key := by
  simp only [h.implementations_iff, Registration.key?_iff, and_or_left, exists_or, Taken]
  refine or_congr_left ⟨?_, ?_⟩
  · rintro ⟨d, hd, hmethod⟩
    obtain ⟨handle, hhandle⟩ := List.mem_iff_getElem?.mp hd
    exact ⟨handle, d, hhandle, hmethod⟩
  · rintro ⟨handle, d, hhandle, hmethod⟩
    exact ⟨d, List.mem_of_getElem? hhandle, hmethod⟩

theorem lookup_iff_listed (h : InStep r done) (hargc : key.argc + 1 < wordLimit) {handle : Nat} :
    r.indexOfMethod? className key.method key.argc = .ok (some handle) ↔
      (className, handle) ∈ r.implementations key.method key.argc ∨
        ∃ q, done[handle]? = some q ∧ q.Clashes className key := by
  rw [h.indexOfMethod?_iff hargc, h.implementations_iff, ← exists_or]
  simp only [Registration.key?_iff, and_or_left]

/-- The joined name is granted once, so what has taken it keeps the method out. -/
theorem not_listed_of_taken (h : InStep r done) (ht : Taken done className key) (handle : Nat) :
    (className, handle) ∉ r.implementations key.method key.argc := by
  intro hlisted
  obtain ⟨d, hd, hclash⟩ := ht
  obtain ⟨place, hplace⟩ := List.mem_iff_getElem?.mp hd
  obtain ⟨q, hq, hmethod⟩ := h.implementations_iff.mp hlisted
  obtain rfl := h.place_unique hq (Registration.key?_of_method? hmethod) hplace hclash.1
  obtain rfl := Option.some.inj (hq.symm.trans hplace)
  exact hclash.2 hmethod

end InStep

namespace Registry

/-- What a registry tells of a method of a class. -/
structure Scoped (r : Registry) (done : List Registration) (className : String) (key : MethodKey) :
    Prop where
  /-- A method is refused as a duplicate exactly if its class has it already, or if another function
  has taken the joined name. -/
  duplicate : ∀ f : NativeFunction, f.arity = .fixed (key.argc + 1) → ∀ name arity,
    ((r.add (.method className key.method f)).1 = .error (.duplicate name arity) ↔
      (methodName className key.method = name ∧ .fixed (key.argc + 1) = arity) ∧
        ((∃ handle, (className, handle) ∈ r.functions.implementations key.method key.argc) ∨
          Taken done className key))
  /-- The joined name finds what is listed for the class, or the function that has taken it, where
  the arguments can be counted together with the receiver. -/
  lookup : key.argc + 1 < wordLimit → ∀ handle,
    r.functions.indexOfMethod? className key.method key.argc = .ok (some handle) ↔
    (className, handle) ∈ r.functions.implementations key.method key.argc ∨
      ∃ q, done[handle]? = some q ∧ q.Clashes className key
  /-- The table of a call has for the class what is listed for it. -/
  dispatch : ∀ handle,
    (Compiler.tableOf r.functions key.method key.argc).handleFor? className = some handle ↔
      (className, handle) ∈ r.functions.implementations key.method key.argc
  /-- A class has nothing listed for a method whose joined name is taken. -/
  taken : Taken done className key →
    (Compiler.tableOf r.functions key.method key.argc).handleFor? className = none
  /-- Where the joined name is not taken, the lookup by it and the table agree. -/
  agrees : key.argc + 1 < wordLimit → ¬ Taken done className key →
    r.functions.indexOfMethod? className key.method key.argc =
      .ok ((Compiler.tableOf r.functions key.method key.argc).handleFor? className)
  /-- The joined name is taken by a function of the very name, or by a method of another class; then
  one of the class names holds a bar. -/
  clashes : ∀ q : Registration, q.Clashes className key →
    (∃ f, q = .function (methodName className key.method) f) ∨
      ∃ other name f, q = .method other name f ∧ other ≠ className ∧
        methodName other name = methodName className key.method ∧
        ('_' ∈ other.toList ∨ '_' ∈ className.toList)

theorem methods_scoped (changes : List Change) (className : String) (key : MethodKey) :
    Scoped (undergoAll changes).1 (undergoAll changes).2 className key := by
  have h := (sound_undergoAll changes).inStep
  generalize (undergoAll changes).1 = r at h ⊢
  generalize (undergoAll changes).2 = done at h ⊢
  constructor
  case duplicate =>
    intro f hf name arity
    have hkey : (Registration.method className key.method f).key? =
        some ⟨methodName className key.method, .fixed (key.argc + 1)⟩ := by
      simp [Registration.key?, hf]
    rw [← h.granted_iff_listed, ← h.duplicate_iff hkey, Registry.add]
    cases r.functions.add (.method className key.method f) <;> simp
  case lookup => exact fun hargc handle => h.lookup_iff_listed hargc
  case dispatch => exact fun handle => h.handleFor?_iff
  case taken =>
    intro ht
    refine Option.eq_none_iff_forall_ne_some.mpr fun handle htable => ?_
    exact h.not_listed_of_taken ht handle (h.handleFor?_iff.mp htable)
  case agrees =>
    intro hargc hfree
    obtain ⟨found, hfound⟩ : ∃ found,
        r.functions.indexOfMethod? className key.method key.argc = .ok found :=
      ⟨_, r.functions.indexOfMethod?_eq className key.method hargc⟩
    rw [hfound]
    refine congrArg Except.ok (Option.ext fun handle => ?_)
    rw [h.handleFor?_iff, ← Except.ok.injEq found, ← hfound, h.lookup_iff_listed hargc]
    refine or_iff_left ?_
    rintro ⟨q, hq, hclash⟩
    exact hfree ⟨q, List.mem_of_getElem? hq, hclash⟩
  case clashes => exact fun q hq => hq.cases

/-- A function of one argument that does nothing. -/
def idle : NativeFunction := .typed [.any] .unset fun _ => pure ()

/-- The method `c` of a class `A_b` that has none is refused, because `A` has a method `b_c`; and
the lookup by the joined name finds the method of `A` for `A_b`, and a constructor for a method.
With as many arguments as a word can count the lookup breaks off. -/
theorem joined_names_collide :
    let methods := (undergoAll [.add (.method "A" "b_c" idle)]).1
    let constructors := (undergoAll [.add (.function (Members.constructorName "A") idle)]).1
    (methods.add (.method "A_b" "c" idle)).1 = .error (.duplicate "A_b_c" (.fixed 1)) ∧
      methods.functions.implementations "c" 0 = [] ∧
      methods.functions.indexOfMethod? "A_b" "c" 0 = .ok (some 0) ∧
      constructors.functions.implementations "constructor" 0 = [] ∧
      constructors.functions.indexOfMethod? "A" "constructor" 0 = .ok (some 0) ∧
      methods.functions.indexOfMethod? "A" "b_c" (wordLimit - 1) = .error .receiver := by
  exact ⟨rfl, rfl, rfl, rfl, rfl, rfl⟩

end Registry
end ScriptEngine
