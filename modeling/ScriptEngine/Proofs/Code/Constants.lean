/-
What the pool keeps of the constants that are added to it.

The index of a constant is where the pool finds it, at the time of the addition
and in every later state of the pool, since the pool only grows behind what it
has.  The entry found is the constant itself or, since the pool compares numbers
as numbers, the zero of the other sign.  So constants are kept as long as no two
of them are the two zeros; with both, the second comes back as the first.
-/
import ScriptEngine.Bytecode.Emitter
import ScriptEngine.Proofs.Decimal.Unsigned

namespace ScriptEngine
namespace Constant

/-! ## Constants that share an entry -/

/-- The constants are the two zeros. -/
inductive Opposed : Constant → Constant → Prop where
  | zeros {x y : Float} (h : Decimal.OppositeZeros x y) : Opposed (number x) (number y)

/-- The constants are held by one entry. -/
def Merged (j k : Constant) : Prop := j = k ∨ j.Opposed k

/-- Among the constants is at most one of the two zeros. -/
def OneZero (ks : List Constant) : Prop := ∀ j ∈ ks, ∀ k ∈ ks, ¬ j.Opposed k

variable {j k l : Constant}

theorem Opposed.symm : j.Opposed k → k.Opposed j
  | zeros h => zeros h.symm

theorem Opposed.ne (h : j.Opposed k) : j ≠ k := by
  rintro rfl
  cases h with
  | zeros h => exact h.ne rfl

theorem Opposed.cancel (h : j.Opposed k) (h' : k.Opposed l) : j = l := by
  cases h with
  | zeros h =>
    cases h' with
    | zeros h' => exact congrArg number (h.cancel h')

theorem Merged.symm (h : j.Merged k) : k.Merged j := Or.imp Eq.symm Opposed.symm h

theorem Merged.trans (h : j.Merged k) (h' : k.Merged l) : j.Merged l := by
  rcases h with rfl | h
  · exact h'
  · rcases h' with rfl | h'
    · exact .inr h
    · exact .inl (h.cancel h')

/-- The pool's comparison merges equal constants and the two zeros, and nothing else. -/
theorem same_iff : j.same k = true ↔ j.Merged k := by
  constructor
  · intro h
    cases j <;> cases k <;> try cases h
    · rename_i x y
      rcases Bool.or_eq_true_iff.mp h with h | h
      · exact (Decimal.eq_or_opposite_of_beq h).imp (congrArg number) .zeros
      · obtain ⟨hx, hy⟩ := Bool.and_eq_true_iff.mp h
        exact .inl (congrArg number (Decimal.eq_of_isNaN hx hy))
    · exact .inl (congrArg bool (eq_of_beq h))
    · exact .inl (congrArg string (eq_of_beq h))
  · rintro (rfl | h)
    · exact j.same_self
    · cases h with
      | zeros h => exact Bool.or_eq_true_iff.mpr (.inl h.beq)

end Constant

namespace ConstantPool

variable {p q : ConstantPool} {j k : Constant} {i : Nat}

/-! ## Finding -/

/-- Where the pool finds a constant. -/
def find? (p : ConstantPool) (k : Constant) : Option Nat := p.constants.findIdx? (·.same k)

theorem get?_of_find? (h : p.find? k = some i) :
    ∃ held, p.get? i = some held ∧ held ∈ p.constants ∧ held.Merged k := by
  obtain ⟨hi, hsame, -⟩ := Array.findIdx?_eq_some_iff_getElem.mp h
  exact ⟨p.constants[i], Array.getElem?_eq_getElem hi, Array.getElem_mem hi,
    Constant.same_iff.mp hsame⟩

theorem find?_congr (p : ConstantPool) (h : j.Merged k) : p.find? j = p.find? k := by
  have hsame : (fun c : Constant => c.same j) = fun c => c.same k := by
    funext c
    rw [Bool.eq_iff_iff, Constant.same_iff, Constant.same_iff]
    exact ⟨fun hj => hj.trans h, fun hk => hk.trans h.symm⟩
  rw [find?, find?, hsame]

theorem find?_inj {i' : Nat} (hj : p.find? j = some i) (hk : p.find? k = some i') :
    i = i' ↔ j.Merged k := by
  constructor
  · rintro rfl
    obtain ⟨held, hget, -, hheld⟩ := get?_of_find? hj
    obtain ⟨held', hget', -, hheld'⟩ := get?_of_find? hk
    obtain rfl : held = held' := Option.some.inj (hget.symm.trans hget')
    exact hheld.symm.trans hheld'
  · intro h
    rw [find?_congr p h, hk] at hj
    exact (Option.some.inj hj).symm

/-! ## Growing -/

/-- The pool begins with the entries of another. -/
def Extends (q p : ConstantPool) : Prop := p.constants.toList <+: q.constants.toList

theorem Extends.refl (p : ConstantPool) : p.Extends p := List.prefix_refl _

theorem Extends.trans {r : ConstantPool} (h : r.Extends q) (h' : q.Extends p) : r.Extends p :=
  List.IsPrefix.trans h' h

theorem Extends.get? (h : q.Extends p) {held : Constant} (hi : p.get? i = some held) :
    q.get? i = some held := by
  rw [ConstantPool.get?, ← Array.getElem?_toList] at hi ⊢
  obtain ⟨hlt, rfl⟩ := List.getElem?_eq_some_iff.mp hi
  exact List.prefix_iff_getElem?.mp h i hlt

theorem Extends.find? (h : q.Extends p) (hi : p.find? k = some i) : q.find? k = some i := by
  obtain ⟨⟨entries⟩⟩ := p
  obtain ⟨⟨more⟩⟩ := q
  rw [ConstantPool.find?, List.findIdx?_toArray] at hi ⊢
  exact List.IsPrefix.findIdx?_eq_some h hi

theorem add_extends (p : ConstantPool) (k : Constant) : (p.add k).2.Extends p := by
  unfold add
  split
  · exact .refl p
  · exact ⟨[k], Array.toList_push.symm⟩

theorem add_find? (p : ConstantPool) (k : Constant) : (p.add k).2.find? k = some (p.add k).1 := by
  cases hfind : p.constants.findIdx? (·.same k) with
  | some i => simp only [add, hfind, find?]
  | none =>
    simp [add, hfind, find?, Array.findIdx?_push, k.same_self, size]

/-- Adding what shares an entry with a constant that was added changes nothing. -/
theorem add_again (p : ConstantPool) (h : j.Merged k) : (p.add j).2.add k = p.add j := by
  have hfind := p.add_find? j
  rw [find?_congr _ h, find?] at hfind
  rw [add, hfind]

theorem mem_add {c : Constant} (h : c ∈ (p.add k).2.constants) : c ∈ p.constants ∨ c = k := by
  unfold add at h
  split at h
  · exact .inl h
  · exact Array.mem_push.mp h

/-! ## Sequences of additions -/

/-- Adds constants one after the other, and gives the index of each. -/
def addAll (p : ConstantPool) : List Constant → List Nat × ConstantPool
  | [] => ([], p)
  | k :: ks =>
    let rest := (p.add k).2.addAll ks
    ((p.add k).1 :: rest.1, rest.2)

theorem addAll_extends (p : ConstantPool) (ks : List Constant) : (p.addAll ks).2.Extends p := by
  induction ks generalizing p with
  | nil => exact .refl p
  | cons k ks ih => exact (ih (p.add k).2).trans (p.add_extends k)

theorem mem_addAll {c : Constant} {ks : List Constant} (h : c ∈ (p.addAll ks).2.constants) :
    c ∈ p.constants ∨ c ∈ ks := by
  induction ks generalizing p with
  | nil => exact .inl h
  | cons k ks ih =>
    rcases ih h with h | h
    · rcases mem_add h with h | rfl
      · exact .inl h
      · exact .inr List.mem_cons_self
    · exact .inr (List.mem_cons_of_mem _ h)

/-- The index given for a constant is where the pool finds it after all additions. -/
theorem addAll_index {ks : List Constant} {n : Nat} (h : ks[n]? = some k) :
    ∃ i, (p.addAll ks).1[n]? = some i ∧ (p.addAll ks).2.find? k = some i := by
  induction ks generalizing p n with
  | nil => cases h
  | cons l ks ih =>
    cases n with
    | zero =>
      cases h
      exact ⟨(p.add k).1, rfl, (addAll_extends _ ks).find? (p.add_find? k)⟩
    | succ n => exact ih h

/-- What additions to a pool keep, up to a relation between the constant that is held and the one
that was added. -/
structure Preserves (R : Constant → Constant → Prop) (p : ConstantPool) (ks : List Constant) :
    Prop where
  /-- At the index of each addition stands, after all of them, a constant that can be taken for the
  one added. -/
  held : ∀ (n : Nat) k, ks[n]? = some k → ∃ i held, (p.addAll ks).1[n]? = some i ∧
    (p.addAll ks).2.get? i = some held ∧ R held k
  /-- The indices of the pool before the additions keep their constants. -/
  before : ∀ i held, p.get? i = some held → (p.addAll ks).2.get? i = some held
  /-- Two additions have one index exactly if their constants can be taken for one another. -/
  shared : ∀ (m n : Nat) j k, ks[m]? = some j → ks[n]? = some k →
    ((p.addAll ks).1[m]? = (p.addAll ks).1[n]? ↔ R j k)

theorem preserves_of {R : Constant → Constant → Prop} {ks : List Constant}
    (hR : ∀ j, j ∈ p.constants ∨ j ∈ ks → ∀ k ∈ ks, (j.Merged k ↔ R j k)) :
    Preserves R p ks where
  held n k hk := by
    obtain ⟨i, hindex, hfind⟩ := addAll_index (p := p) hk
    obtain ⟨held, hget, hmem, hmerged⟩ := get?_of_find? hfind
    have hrelated := hR held (mem_addAll hmem) k (List.mem_of_getElem? hk)
    exact ⟨i, held, hindex, hget, hrelated.mp hmerged⟩
  before _ _ h := (p.addAll_extends ks).get? h
  shared m n j k hj hk := by
    obtain ⟨i, hi, hfind⟩ := addAll_index (p := p) hj
    obtain ⟨i', hi', hfind'⟩ := addAll_index (p := p) hk
    rw [hi, hi', Option.some.injEq,
      ← hR j (.inr (List.mem_of_getElem? hj)) k (List.mem_of_getElem? hk)]
    exact find?_inj hfind hfind'

end ConstantPool

/-! ## Emission -/

/-- A step of writing a program. -/
inductive Emission where
  | setLine (line : Nat)
  | emit (i : Instruction)
  | constant (k : Constant)
  | jump (conditional : Bool)
  | patch (label : Label)
  | loop (start : Nat)

namespace Emission

def perform : Emission → Emitter → Emitter
  | setLine line, e => e.setLine line
  | emit i, e => e.emit i
  | constant k, e => e.constant k
  | jump conditional, e => (e.jump conditional).2
  | patch label, e => e.patch label
  | loop start, e => e.loop start

def constant? : Emission → Option Constant
  | constant k => some k
  | _ => none

end Emission

namespace Emitter

variable {e : Emitter} {es : List Emission} {k : Constant} {n : Nat}

def performAll (e : Emitter) (es : List Emission) : Emitter :=
  es.foldl (fun e step => step.perform e) e

/-- The pool of an emitter is the one with the emitted constants added. -/
theorem performAll_constants (e : Emitter) (es : List Emission) :
    (e.performAll es).constants = (e.constants.addAll (es.filterMap Emission.constant?)).2 := by
  induction es generalizing e with
  | nil => rfl
  | cons step es ih => cases step <;> exact ih _

/-- The emission of the given number appends an instruction that loads the constant at the given
index. -/
def Loads (e : Emitter) (es : List Emission) (n i : Nat) : Prop :=
  (e.performAll (es.take (n + 1))).code = (e.performAll (es.take n)).code.push (.constant i)

theorem mem_emitted (h : es[n]? = some (.constant k)) : k ∈ es.filterMap Emission.constant? :=
  List.mem_filterMap.mpr ⟨.constant k, List.mem_of_getElem? h, rfl⟩

theorem exists_emission (h : k ∈ es.filterMap Emission.constant?) :
    ∃ n : Nat, es[n]? = some (Emission.constant k) := by
  obtain ⟨step, hmem, hstep⟩ := List.mem_filterMap.mp h
  cases step with
  | constant =>
    cases hstep
    exact List.getElem?_of_mem hmem
  | _ => cases hstep

theorem performAll_take (h : es[n]? = some (.constant k)) :
    e.performAll (es.take (n + 1)) = (e.performAll (es.take n)).constant k := by
  rw [performAll, List.take_add_one, h, List.foldl_append]
  rfl

theorem loads_find? (h : es[n]? = some (.constant k)) :
    ∃ i, e.Loads es n i ∧ (e.performAll es).constants.find? k = some i := by
  let before := e.performAll (es.take n)
  have hafter : (before.constant k).performAll (es.drop (n + 1)) = e.performAll es := by
    rw [← performAll_take h, performAll, performAll, ← List.foldl_append, List.take_append_drop]
    rfl
  refine ⟨(before.constants.add k).1, ?_, ?_⟩
  · rw [Loads, performAll_take h]
    rfl
  · rw [← hafter, performAll_constants]
    exact (ConstantPool.addAll_extends ..).find? (before.constants.add_find? k)

theorem Loads.unique {i i' : Nat} (h : e.Loads es n i) (h' : e.Loads es n i') : i = i' := by
  rw [Loads] at h h'
  rw [h] at h'
  exact Instruction.constant.inj (Array.push_inj_right.mp h')

/-- What the emission of constants keeps, up to a relation between the constant that is loaded and
the one that was emitted. -/
structure Preserves (R : Constant → Constant → Prop) (e : Emitter) (es : List Emission) :
    Prop where
  /-- The instruction emitted for a constant loads, from the final pool, one that can be taken for
  it. -/
  held : ∀ (n : Nat) k, es[n]? = some (.constant k) → ∃ i held, e.Loads es n i ∧
    (e.performAll es).constants.get? i = some held ∧ R held k
  /-- The indices of the pool before the emissions keep their constants. -/
  before : ∀ i held, e.constants.get? i = some held → (e.performAll es).constants.get? i = some held
  /-- Two emissions load from one index exactly if their constants can be taken for one another. -/
  shared : ∀ (m n i i' : Nat) j k, es[m]? = some (.constant j) → es[n]? = some (.constant k) →
    e.Loads es m i → e.Loads es n i' → (i = i' ↔ R j k)

theorem preserves_of {R : Constant → Constant → Prop}
    (hR : ∀ j, j ∈ e.constants.constants ∨ j ∈ es.filterMap Emission.constant? →
      ∀ k ∈ es.filterMap Emission.constant?, (j.Merged k ↔ R j k)) :
    Preserves R e es where
  held n k hk := by
    obtain ⟨i, hloads, hfind⟩ := loads_find? (e := e) hk
    obtain ⟨held, hget, hmem, hmerged⟩ := ConstantPool.get?_of_find? hfind
    rw [performAll_constants] at hmem
    have hrelated := hR held (ConstantPool.mem_addAll hmem) k (mem_emitted hk)
    exact ⟨i, held, hloads, hget, hrelated.mp hmerged⟩
  before _ _ h := by
    rw [performAll_constants]
    exact (ConstantPool.addAll_extends ..).get? h
  shared m n i i' j k hj hk hi hi' := by
    obtain ⟨at_j, hloads, hfind⟩ := loads_find? (e := e) hj
    obtain ⟨at_k, hloads', hfind'⟩ := loads_find? (e := e) hk
    rw [hi.unique hloads, hi'.unique hloads', ← hR j (.inr (mem_emitted hj)) k (mem_emitted hk)]
    exact ConstantPool.find?_inj hfind hfind'

end Emitter

/-! ## Constants are kept -/

open Constant

theorem Constant.OneZero.merged_iff {ks : List Constant} (h : OneZero ks) {j k : Constant}
    (hj : j ∈ ks) (hk : k ∈ ks) : j.Merged k ↔ j = k := or_iff_left (h j hj k hk)

theorem Constant.AllUnsigned.oneZero {ks : List Constant} (h : AllUnsigned ks) : OneZero ks :=
  fun j hj k hk hopposed => hopposed.ne (eq_of_same (h j hj) (h k hk) (same_iff.mpr (.inr hopposed)))

theorem ConstantPool.preserves_exact {p : ConstantPool} {ks : List Constant}
    (h : OneZero (p.constants.toList ++ ks)) : p.Preserves Eq ks :=
  preserves_of fun _ hj _ hk =>
    h.merged_iff (List.mem_append.mpr (hj.imp_left Array.mem_toList_iff.mpr))
      (List.mem_append_right _ hk)

theorem Emitter.preserves_exact {e : Emitter} {es : List Emission}
    (h : OneZero (e.constants.constants.toList ++ es.filterMap Emission.constant?)) :
    e.Preserves Eq es :=
  preserves_of fun _ hj _ hk =>
    h.merged_iff (List.mem_append.mpr (hj.imp_left Array.mem_toList_iff.mpr))
      (List.mem_append_right _ hk)

theorem ConstantPool.oneZero_of_preserves {p : ConstantPool} {ks : List Constant}
    (h : p.Preserves Eq ks) : OneZero ks := by
  intro j hj k hk hopposed
  obtain ⟨m, hm⟩ := List.getElem?_of_mem hj
  obtain ⟨n, hn⟩ := List.getElem?_of_mem hk
  have hmerged : p.Preserves Merged ks := preserves_of fun _ _ _ _ => Iff.rfl
  have hindex := (hmerged.shared m n j k hm hn).mpr (.inr hopposed)
  exact hopposed.ne ((h.shared m n j k hm hn).mp hindex)

theorem Emitter.oneZero_of_preserves {e : Emitter} {es : List Emission}
    (h : e.Preserves Eq es) : OneZero (es.filterMap Emission.constant?) := by
  intro j hj k hk hopposed
  obtain ⟨m, hm⟩ := exists_emission hj
  obtain ⟨n, hn⟩ := exists_emission hk
  obtain ⟨i, hi, -⟩ := loads_find? (e := e) hm
  obtain ⟨i', hi', -⟩ := loads_find? (e := e) hn
  have hmerged : e.Preserves Merged es := preserves_of fun _ _ _ _ => Iff.rfl
  have hindex := (hmerged.shared m n i i' j k hm hn hi hi').mpr (.inr hopposed)
  exact hopposed.ne ((h.shared m n i i' j k hm hn hi hi').mp hindex)

/-- What deduplication keeps of the constants added to a pool and of those emitted: only the two
zeros are taken for one another. -/
structure KeepsConstants (p : ConstantPool) (ks : List Constant) (e : Emitter)
    (es : List Emission) : Prop where
  /-- Whatever is added, the constant that is held is the one added or the zero of the other
  sign. -/
  added : p.Preserves Merged ks
  emitted : e.Preserves Merged es
  /-- As long as no two constants are the two zeros, all are held as they were added. -/
  addedExact : OneZero (p.constants.toList ++ ks) → p.Preserves Eq ks
  emittedExact : OneZero (e.constants.constants.toList ++ es.filterMap Emission.constant?) →
    e.Preserves Eq es
  /-- From an empty pool on, all are held as they were added only then. -/
  addedFirst : ConstantPool.empty.Preserves Eq ks ↔ OneZero ks
  emittedFirst : Emitter.new.Preserves Eq es ↔ OneZero (es.filterMap Emission.constant?)
  /-- Constants without a sign, such as the literals of scripts, are held as they are. -/
  unsigned : AllUnsigned ks → ConstantPool.empty.Preserves Eq ks

theorem constants_kept (p : ConstantPool) (ks : List Constant) (e : Emitter)
    (es : List Emission) : KeepsConstants p ks e es where
  added := ConstantPool.preserves_of fun _ _ _ _ => Iff.rfl
  emitted := Emitter.preserves_of fun _ _ _ _ => Iff.rfl
  addedExact := ConstantPool.preserves_exact
  emittedExact := Emitter.preserves_exact
  addedFirst := ⟨ConstantPool.oneZero_of_preserves, fun h => ConstantPool.preserves_exact h⟩
  emittedFirst := ⟨Emitter.oneZero_of_preserves, fun h => Emitter.preserves_exact h⟩
  unsigned h := ConstantPool.preserves_exact h.oneZero

/-- The two zeros share an entry, although they are shown differently and division by them gives
different results: the second comes back as the first. -/
theorem zeros_share_entry :
    let zeros := [Constant.number Decimal.positiveZero, .number Decimal.negativeZero]
    (ConstantPool.empty.addAll zeros).1 = [0, 0] ∧
      (ConstantPool.empty.addAll zeros).2.constants = #[.number Decimal.positiveZero] ∧
      zeros.map Constant.text = ["0", "-0"] ∧
      (1.0 : Float) / Decimal.positiveZero ≠ 1.0 / Decimal.negativeZero := by
  have hfirst : ConstantPool.empty.add (.number Decimal.positiveZero) =
      (0, ⟨#[.number Decimal.positiveZero]⟩) := by
    simp [ConstantPool.add, ConstantPool.empty, ConstantPool.size]
  have hopposed : Opposed (.number Decimal.positiveZero) (.number Decimal.negativeZero) :=
    .zeros (.inl ⟨rfl, rfl⟩)
  have hsecond := ConstantPool.empty.add_again (.inr hopposed)
  rw [hfirst] at hsecond
  refine ⟨?_, ?_, ?_, ?_⟩
  · simp only [ConstantPool.addAll, hfirst, hsecond]
  · simp only [ConstantPool.addAll, hfirst, hsecond]
  · decide
  · decide

end ScriptEngine
