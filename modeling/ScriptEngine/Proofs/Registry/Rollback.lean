/-
Adding a class is all or nothing.

A setup changes the functions by its granted requests alone (`Setup.granted`), one after
the other, so what one registration preserves a setup preserves (`Setup.run_induct`).
One more function at the end is cut off again by a cut that is not behind it
(`truncate_push`); so cutting back to the size before a setup undoes the setup, whatever
it did, and a class that fails leaves the registry as it was.

`Registry.undergoAll` makes any changes one after the other, classes that fail included,
and lists the requests that were granted and stayed.
-/
import ScriptEngine.Proofs.Registry.Directory

namespace ScriptEngine

open FunctionRegistry (Addition additionOf)

/-! ## Cutting off a registration -/

namespace MethodIndex

variable {count : Nat} {index : MethodIndex}

/-- What is recorded behind a cut is cut off. -/
theorem cut_record {key : MethodKey} {item : String × Nat} (h : count ≤ item.2) :
    (index.record key item).cut count = index.cut count := by
  have hitem : ¬ item.2 < count := by omega
  induction index with
  | nil => simp [record, cut, hitem]
  | cons first rest ih =>
    obtain ⟨k, items⟩ := first
    by_cases hk : k = key
    · rw [record, if_pos hk, cut, cut, List.filter_append, List.filter_cons_of_neg (by simpa),
        List.filter_nil, List.append_nil]
    · rw [record, if_neg hk, cut, cut, ih]

/-- A cut behind everything changes nothing, if no method is without a class. -/
theorem cut_of_lt (hlt : ∀ m ∈ index, ∀ i ∈ m.2, i.2 < count) (hne : ∀ m ∈ index, m.2 ≠ []) :
    index.cut count = index := by
  induction index with
  | nil => rfl
  | cons first rest ih =>
    obtain ⟨k, items⟩ := first
    have hkept : items.filter (·.2 < count) = items :=
      List.filter_eq_self.mpr fun i hi => decide_eq_true (hlt _ List.mem_cons_self i hi)
    have hitems : items.isEmpty = false := by simpa using hne _ List.mem_cons_self
    simp only [cut, hkept, hitems, Bool.false_eq_true, if_false]
    rw [ih (fun m hm => hlt m (List.mem_cons_of_mem _ hm))
      fun m hm => hne m (List.mem_cons_of_mem _ hm)]

/-- A recorded method has a class. -/
theorem record_ne_nil {key : MethodKey} {item : String × Nat} (h : ∀ m ∈ index, m.2 ≠ []) :
    ∀ m ∈ index.record key item, m.2 ≠ [] := by
  induction index with
  | nil => simp [record]
  | cons first rest ih =>
    obtain ⟨k, items⟩ := first
    have hrest : ∀ m ∈ rest, m.2 ≠ [] := fun m hm => h m (List.mem_cons_of_mem _ hm)
    rw [record]
    split
    · exact List.forall_mem_cons.mpr ⟨by simp, hrest⟩
    · exact List.forall_mem_cons.mpr ⟨h _ List.mem_cons_self, ih hrest⟩

end MethodIndex

attribute [ext] FunctionRegistry

namespace FunctionRegistry

variable {r : FunctionRegistry} {a : Addition} {count : Nat}

/-- No method is listed without a class. -/
def Filled (r : FunctionRegistry) : Prop := ∀ m ∈ r.methods, m.2 ≠ []

theorem Filled.push (h : r.Filled) (a : Addition) : (r.push a).Filled := by
  obtain ⟨entry, method⟩ := a
  cases method with
  | none => exact h
  | some m => exact MethodIndex.record_ne_nil h

theorem entries_push (r : FunctionRegistry) (a : Addition) :
    r.entries.toList <+: (r.push a).entries.toList := by
  rw [push, Array.toList_push]
  exact List.prefix_append _ _

theorem truncate_entries : (r.truncate count).entries = r.entries.take count := by
  unfold truncate
  split
  · next h => rw [Array.take_eq_extract, Array.extract_eq_self_of_le h]
  · rfl

theorem truncate_names : (r.truncate count).names =
    r.names.filter fun p => (r.entries.toList.drop count).all (·.mangled ≠ p.1) := by
  unfold truncate
  split
  · next h =>
    rw [List.drop_eq_nil_of_le h]
    exact (List.filter_eq_self.mpr fun _ _ => rfl).symm
  · rfl

theorem truncate_methods (h : r.Filled) : (r.truncate count).methods = r.methods.cut count := by
  unfold truncate
  split
  · next hle =>
    have hlt := fun m hm i hi => Nat.lt_of_lt_of_le (r.listed m hm i hi) hle
    exact (MethodIndex.cut_of_lt hlt h).symm
  · rfl

theorem truncate_size : r.truncate r.size = r := by
  rw [truncate, dif_pos (Nat.le_refl _)]

/-- The function at the end is cut off, and with it its name and the class of its method. -/
theorem truncate_push (h : r.Filled) (hfree : r.indexOf? a.entry.mangled = none)
    (hle : count ≤ r.size) : (r.push a).truncate count = r.truncate count := by
  have hdrop : (r.push a).entries.toList.drop count =
      r.entries.toList.drop count ++ [a.entry] := by
    simp only [push, Array.toList_push]
    exact List.drop_append_of_le_length hle
  ext1
  · rw [truncate_entries, truncate_entries, Array.take_eq_extract, Array.take_eq_extract, push,
      Array.extract_push]
    exact if_pos hle
  · -- no name from before is that of the function at the end
    have hold : ∀ p ∈ r.names, a.entry.mangled ≠ p.1 := fun p hp h =>
      absurd h (bne_iff_ne.mp (List.lookup_eq_none_iff.mp hfree p hp))
    rw [truncate_names, truncate_names, hdrop, push, List.filter_append,
      List.filter_cons_of_neg (by simp), List.filter_nil, List.append_nil]
    refine List.filter_congr fun p hp => ?_
    simp [List.all_append, hold p hp]
  · rw [truncate_methods (h.push a), truncate_methods h]
    obtain ⟨entry, method⟩ := a
    cases method with
    | none => rfl
    | some m => exact MethodIndex.cut_record hle

/-- A registry that is another one again when it is cut back to its size. -/
structure Grown (base r : FunctionRegistry) : Prop where
  filled : r.Filled
  size_le : base.size ≤ r.size
  truncate : r.truncate base.size = base

theorem Grown.refl (h : r.Filled) : r.Grown r := ⟨h, Nat.le_refl _, truncate_size⟩

theorem Grown.push {base : FunctionRegistry} (h : base.Grown r)
    (hfree : r.indexOf? a.entry.mangled = none) : base.Grown (r.push a) where
  filled := h.filled.push a
  size_le := by
    rw [size_push]
    exact Nat.le_succ_of_le h.size_le
  truncate := by rw [truncate_push h.filled hfree h.size_le, h.truncate]

end FunctionRegistry

/-! ## Setups -/

namespace Setup

/-- The requests that a setup is granted, oldest first. -/
def granted : Setup → FunctionRegistry → List Registration
  | done _, _ => []
  | request q next, r =>
    match r.add q with
    | .ok (handle, extended) => q :: (next (.ok handle)).granted extended
    | .error e => (next (.error e)).granted r

/-- What every registration preserves, a setup preserves. -/
theorem run_induct {P : FunctionRegistry → List Registration → Prop}
    (step : ∀ {r done q a}, P r done → additionOf q = .ok a →
      r.indexOf? a.entry.mangled = none → P (r.push a) (done ++ [q]))
    (s : Setup) (r : FunctionRegistry) (done : List Registration) (h : P r done) :
    P (s.run r).2 (done ++ s.granted r) := by
  induction s generalizing r done with
  | done outcome => simpa only [run, granted, List.append_nil] using h
  | request q next ih =>
    rw [run, granted]
    cases hadd : r.add q with
    | error e => exact ih _ r done h
    | ok result =>
      obtain ⟨a, ha, hfree, hhandle, hextended⟩ :=
        FunctionRegistry.add_eq_ok.mp (hadd.trans (congrArg Except.ok result.eta.symm))
      have hnext := ih (.ok result.1) _ _ (step h ha hfree)
      rw [List.append_assoc] at hnext
      rw [← hextended] at hnext
      exact hnext

/-- Cutting back to the size before a setup undoes the setup. -/
theorem truncate_run (s : Setup) {r : FunctionRegistry} (h : r.Filled) :
    (s.run r).2.truncate r.size = r :=
  (s.run_induct (P := fun r' _ => r.Grown r') (fun hg _ hfree => hg.push hfree) r []
    (.refl h)).truncate

/-- A setup leaves the entries before it where they are. -/
theorem entries_run (s : Setup) (r : FunctionRegistry) :
    r.entries.toList <+: (s.run r).2.entries.toList :=
  s.run_induct (P := fun r' _ => r.entries.toList <+: r'.entries.toList)
    (fun h _ _ => h.trans (FunctionRegistry.entries_push _ _)) r [] (List.prefix_refl _)

theorem names_run (s : Setup) (r : FunctionRegistry) : r.names <+: (s.run r).2.names :=
  s.run_induct (P := fun r' _ => r.names <+: r'.names)
    (fun h _ _ => h.trans (List.prefix_append _ _)) r [] (List.prefix_refl _)

end Setup

/-! ## Changes of a registry -/

namespace Registry

/-- A change of a registry: one request, or a class with all that it registers. -/
inductive Change where
  | add (request : Registration)
  | addClass (c : ClassDeclaration)

def change (r : Registry) : Change → Registry
  | .add q => (r.add q).2
  | .addClass c => (r.addClass c).2

def changeAll (r : Registry) (changes : List Change) : Registry := changes.foldl change r

/-- The requests that a change is granted and that stay. -/
def granted (r : Registry) : Change → List Registration
  | .add q =>
    match r.add q with
    | (.ok _, _) => [q]
    | (.error _, _) => []
  | .addClass c =>
    match r.addClass c with
    | (.ok true, _) => c.setup.granted r.functions
    | _ => []

/-- One more change, with the requests that were granted so far. -/
def undergo (s : Registry × List Registration) (c : Change) : Registry × List Registration :=
  (s.1.change c, s.2 ++ s.1.granted c)

/-- The registry after some changes, and the requests that were granted and stayed, oldest first. -/
def undergoAll (changes : List Change) : Registry × List Registration :=
  changes.foldl undergo (.empty, [])

variable {r : Registry} {done : List Registration} {c : ClassDeclaration}

theorem addClass_present (h : r.hasClass c.name = true) : r.addClass c = (.ok false, r) := by
  rw [addClass, if_pos h]

theorem addClass_absent (hfilled : r.functions.Filled) (h : r.hasClass c.name = false) :
    r.addClass c =
      match (c.setup.run r.functions).1 with
      | .ok () => (.ok true, ⟨(c.setup.run r.functions).2, r.classes ++ [c.name]⟩)
      | .error e => (.error e, r) := by
  have hback := c.setup.truncate_run hfilled
  rw [addClass, if_neg (by simp [h])]
  rcases hrun : c.setup.run r.functions with ⟨_ | _, functions⟩
  · rw [hrun] at hback
    dsimp only at hback ⊢
    rw [hback]
  · rfl

/-- The entries and the indexes are those of the granted requests, every method that is listed has
a class, and no class is listed twice. -/
structure Sound (r : Registry) (done : List Registration) : Prop where
  inStep : InStep r.functions done
  filled : r.functions.Filled
  classes : r.classes.Nodup

theorem Sound.setup (h : Sound r done) (s : Setup) :
    InStep (s.run r.functions).2 (done ++ s.granted r.functions) ∧
      (s.run r.functions).2.Filled :=
  s.run_induct (P := fun r done => InStep r done ∧ r.Filled)
    (fun h ha hfree => ⟨h.1.push ha hfree, h.2.push _⟩) _ _ ⟨h.inStep, h.filled⟩

theorem Sound.change (h : Sound r done) (c : Change) :
    Sound (r.change c) (done ++ r.granted c) := by
  cases c with
  | add q =>
    rw [Registry.change, granted]
    rcases hadd : r.add q with ⟨e | handle, next⟩
    · rw [add_eq_error hadd, List.append_nil]
      exact h
    · obtain ⟨hadd, hclasses⟩ := add_eq_ok.mp hadd
      obtain ⟨a, ha, hfree, -, hnext⟩ := FunctionRegistry.add_eq_ok.mp hadd
      exact ⟨hnext ▸ h.inStep.push ha hfree, hnext ▸ h.filled.push a, hclasses ▸ h.classes⟩
  | addClass c =>
    rw [Registry.change, granted]
    cases hclass : r.hasClass c.name with
    | true =>
      rw [addClass_present hclass, List.append_nil]
      exact h
    | false =>
      rw [addClass_absent h.filled hclass]
      rcases (c.setup.run r.functions).1 with e | ⟨⟨⟩⟩
      · rw [List.append_nil]
        exact h
      · have hnew : c.name ∉ r.classes := by simpa [hasClass] using hclass
        refine ⟨(h.setup c.setup).1, (h.setup c.setup).2, List.nodup_append.mpr
          ⟨h.classes, List.pairwise_singleton _ _, fun x hx y hy hxy => hnew ?_⟩⟩
        rwa [← List.mem_singleton.mp hy, ← hxy]

/-- A class that is not added changes nothing. -/
theorem Sound.change_of_refused (h : Sound r done) (hnot : (r.addClass c).1 ≠ .ok true) :
    r.change (.addClass c) = r := by
  rw [Registry.change]
  cases hclass : r.hasClass c.name with
  | true => rw [addClass_present hclass]
  | false =>
    rw [addClass_absent h.filled hclass] at hnot ⊢
    rcases hrun : (c.setup.run r.functions).1 with e | ⟨⟨⟩⟩
    · rfl
    · rw [hrun] at hnot
      exact absurd rfl hnot

theorem sound_undergoAll (changes : List Change) :
    Sound (undergoAll changes).1 (undergoAll changes).2 := by
  suffices ∀ s : Registry × List Registration, Sound s.1 s.2 →
      Sound (changes.foldl undergo s).1 (changes.foldl undergo s).2 from
    this _ ⟨.empty, nofun, .nil⟩
  induction changes with
  | nil => exact fun s h => h
  | cons c rest ih => exact fun s h => ih _ (h.change c)

/-- What adding a class does to a registry whose granted requests are known. -/
structure AllOrNothing (r : Registry) (done : List Registration) (c : ClassDeclaration) : Prop where
  /-- The registry is in step with the granted requests, and no method has an empty list. -/
  sound : Sound r done
  /-- A name that is there is refused, whatever the setup would do. -/
  present : r.hasClass c.name = true → ∀ setup, r.addClass ⟨c.name, setup⟩ = (.ok false, r)
  /-- A setup that fails gives its error, and the registry is what it was. -/
  fails : r.hasClass c.name = false → ∀ e, (c.setup.run r.functions).1 = .error e →
    r.addClass c = (.error e, r)
  /-- A class that is not added makes no difference to any later changes. -/
  later : (r.addClass c).1 ≠ .ok true →
    ∀ more, r.changeAll (.addClass c :: more) = r.changeAll more
  /-- A setup that ends well adds its granted requests behind the others, in their order, and the
  class behind the other classes. -/
  succeeds : r.hasClass c.name = false → (c.setup.run r.functions).1 = .ok () →
    ∃ next, r.addClass c = (.ok true, next) ∧ next.classes = r.classes ++ [c.name] ∧
      r.functions.entries.toList <+: next.functions.entries.toList ∧
      r.functions.names <+: next.functions.names ∧
      Sound next (done ++ c.setup.granted r.functions)

/-- After any changes, adding a class either adds all that its setup registers, or nothing. -/
theorem addClass_allOrNothing (changes : List Change) (c : ClassDeclaration) :
    AllOrNothing (undergoAll changes).1 (undergoAll changes).2 c := by
  have h := sound_undergoAll changes
  generalize (undergoAll changes).1 = r at h ⊢
  generalize (undergoAll changes).2 = done at h ⊢
  constructor
  case sound => exact h
  case present => exact fun hclass setup => addClass_present hclass
  case fails =>
    intro hclass e he
    rw [addClass_absent h.filled hclass, he]
  case later =>
    intro hnot more
    show (r.change (.addClass c)).changeAll more = r.changeAll more
    rw [h.change_of_refused hnot]
  case succeeds =>
    intro hclass hok
    have hadd := addClass_absent h.filled hclass
    rw [hok] at hadd
    have hsound := h.change (.addClass c)
    rw [Registry.change, granted, hadd] at hsound
    exact ⟨_, hadd, rfl, c.setup.entries_run _, c.setup.names_run _, hsound⟩

end Registry
end ScriptEngine
