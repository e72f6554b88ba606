/-
The books of an emitter.

A step of writing a program either appends one instruction with the line that was set last, or
appends none.  So the offsets before the appending steps number the instructions of the program
(`offset_lt`, `placed`), and the steps and the instructions can be told from each other.

Only the patch of a label writes where an instruction stands already.  Labels are told apart by
their offsets, and no label of an emitter stands where anything but its jump was appended
(`Issued.unique`); so an instruction that is no forward jump stays as it is, and a forward jump is
what the last patch of its label made it (`emitter_books`).
-/
import Mathlib.Tactic.IntervalCases
import ScriptEngine.Proofs.Code.Constants

namespace ScriptEngine

namespace Emission

/-- The line that a step sets. -/
def line? : Emission → Option Nat
  | setLine line => some line
  | _ => none

/-- The instruction that a step appends to an emitter. -/
def appended? (e : Emitter) : Emission → Option Instruction
  | emit i => some i
  | constant k => some (.constant (e.constants.add k).1)
  | jump conditional => some ((e.jump conditional).1.jump Label.placeholder)
  | loop start => some (.jump start)
  | setLine _ | patch _ => none

/-! ## One step -/

variable {e : Emitter} {step : Emission} {i : Instruction} {k : Nat}

theorem perform_code (h : step.appended? e = some i) : (step.perform e).code = e.code.push i := by
  cases step <;> cases h <;> rfl

theorem perform_lines (h : step.appended? e = some i) :
    (step.perform e).lines = e.lines.push e.line := by
  cases step <;> cases h <;> rfl

theorem perform_silent (h : step.appended? e = none) :
    (step.perform e).code.size = e.code.size ∧ (step.perform e).lines = e.lines := by
  cases step with
  | setLine line => exact ⟨rfl, rfl⟩
  | patch label => exact ⟨Array.size_setIfInBounds, rfl⟩
  | _ => cases h

theorem perform_offset (h : step.appended? e = some i) :
    (step.perform e).offset = e.offset + 1 := by
  rw [Emitter.offset, perform_code h, Array.size_push, Emitter.offset]

/-- The other instructions stay as they are. -/
theorem perform_kept (hk : k < e.offset) (h : ∀ label, step = .patch label → label.offset ≠ k) :
    (step.perform e).code[k]? = e.code[k]? := by
  cases happ : step.appended? e with
  | some i => rw [perform_code happ, Array.getElem?_push_lt hk, Array.getElem?_eq_getElem hk]
  | none =>
    cases step with
    | setLine line => rfl
    | patch label => exact Array.getElem?_setIfInBounds_ne (h label rfl)
    | _ => cases happ

/-- A patch makes the jump of its label go on at the next instruction. -/
theorem perform_patched {label : Label} (h : label.offset < e.offset) :
    ((patch label).perform e).code[label.offset]? = some (label.jump e.offset) :=
  Array.getElem?_setIfInBounds_self_of_lt h

end Emission

namespace Emitter

variable {e : Emitter} {es : List Emission} {step : Emission} {i : Instruction} {label : Label}
  {k m n : Nat}

/-! ## Some steps -/

/-- The line that is set after some steps: the last one set, and the first line before any. -/
def lastLine (es : List Emission) : Nat := (es.filterMap Emission.line?).getLastD 1

theorem performAll_line (e : Emitter) (es : List Emission) :
    (e.performAll es).line = (es.filterMap Emission.line?).getLastD e.line := by
  induction es generalizing e with
  | nil => rfl
  | cons step es ih =>
    refine (ih (step.perform e)).trans ?_
    cases step with
    | setLine line => exact List.getLastD_cons.symm
    | _ => rfl

theorem offset_le_performAll (e : Emitter) (es : List Emission) :
    e.offset ≤ (e.performAll es).offset := by
  induction es generalizing e with
  | nil => exact Nat.le_refl _
  | cons step es ih =>
    refine Nat.le_trans ?_ (ih (step.perform e))
    cases happ : step.appended? e with
    | some i => exact Nat.le_of_lt (Nat.lt_of_lt_of_eq (Nat.lt_succ_self _)
        (Emission.perform_offset happ).symm)
    | none => exact Nat.le_of_eq (Emission.perform_silent happ).1.symm

theorem performAll_lines (e : Emitter) (es : List Emission) :
    e.lines.toList <+: (e.performAll es).lines.toList := by
  induction es generalizing e with
  | nil => exact List.prefix_refl _
  | cons step es ih =>
    refine List.IsPrefix.trans ?_ (ih (step.perform e))
    cases happ : step.appended? e with
    | some i =>
      rw [Emission.perform_lines happ, Array.toList_push]
      exact List.prefix_append _ _
    | none =>
      exact (Emission.perform_silent happ).2.symm ▸ List.prefix_refl _

theorem performAll_balanced (h : e.lines.size = e.code.size) (es : List Emission) :
    (e.performAll es).lines.size = (e.performAll es).code.size := by
  induction es generalizing e with
  | nil => exact h
  | cons step es ih =>
    refine ih ?_
    cases happ : step.appended? e with
    | some i =>
      rw [Emission.perform_lines happ, Emission.perform_code happ, Array.size_push, Array.size_push,
        h]
    | none =>
      obtain ⟨hcode, hlines⟩ := Emission.perform_silent happ
      rw [hlines, hcode, h]

theorem performAll_kept (hk : k < e.offset) (h : ∀ label, .patch label ∈ es → label.offset ≠ k) :
    (e.performAll es).code[k]? = e.code[k]? := by
  induction es generalizing e with
  | nil => rfl
  | cons step es ih =>
    have hstep := Emission.perform_kept hk fun label hpatch =>
      h label (hpatch ▸ List.mem_cons_self)
    have hnext := Nat.lt_of_lt_of_le hk (e.offset_le_performAll [step])
    exact (ih hnext fun label hmem => h label (List.mem_cons_of_mem _ hmem)).trans hstep

theorem performAll_extends (e : Emitter) (es : List Emission) :
    (e.performAll es).constants.Extends e.constants := by
  rw [performAll_constants]
  exact ConstantPool.addAll_extends ..

/-! ## The emitter before each step -/

/-- The emitter after the first steps. -/
def stage (es : List Emission) (n : Nat) : Emitter := new.performAll (es.take n)

theorem stage_succ (h : es[n]? = some step) : stage es (n + 1) = step.perform (stage es n) := by
  rw [stage, List.take_add_one, h, performAll, List.foldl_append]
  rfl

/-- The steps from one on lead to the emitter after any later one. -/
theorem stage_performAll (es : List Emission) (h : m ≤ n) :
    (stage es m).performAll ((es.take n).drop m) = stage es n := by
  have htake : (es.take n).take m = es.take m := by rw [List.take_take, Nat.min_eq_left h]
  rw [stage, stage, performAll, performAll, ← List.foldl_append, ← htake, List.take_append_drop]
  rfl

theorem stage_finished (es : List Emission) (n : Nat) :
    (stage es n).performAll (es.drop n) = new.performAll es := by
  rw [stage, performAll, performAll, ← List.foldl_append, List.take_append_drop]
  rfl

theorem offset_le (h : m ≤ n) : (stage es m).offset ≤ (stage es n).offset := by
  rw [← stage_performAll es h]
  exact offset_le_performAll _ _

/-- The step of the given number appends the instruction. -/
def Adds (es : List Emission) (n : Nat) (i : Instruction) : Prop :=
  ∃ step, es[n]? = some step ∧ step.appended? (stage es n) = some i

namespace Adds

variable {i' : Instruction}

theorem code (h : Adds es n i) : (stage es (n + 1)).code = (stage es n).code.push i := by
  obtain ⟨step, hn, happ⟩ := h
  rw [stage_succ hn, Emission.perform_code happ]

theorem offset_succ (h : Adds es n i) : (stage es (n + 1)).offset = (stage es n).offset + 1 := by
  rw [offset, h.code, Array.size_push, offset]

/-- What is appended stands before all that follows. -/
theorem offset_lt (h : Adds es m i) (hlt : m < n) : (stage es m).offset < (stage es n).offset := by
  have hnext : (stage es (m + 1)).offset ≤ (stage es n).offset := offset_le hlt
  rw [h.offset_succ] at hnext
  exact hnext

/-- No two steps append at one offset. -/
theorem unique (hm : Adds es m i) (hn : Adds es n i')
    (h : (stage es m).offset = (stage es n).offset) : m = n := by
  rcases Nat.lt_trichotomy m n with hlt | heq | hgt
  · exact absurd h (Nat.ne_of_lt (hm.offset_lt hlt))
  · exact heq
  · exact absurd h.symm (Nat.ne_of_lt (hn.offset_lt hgt))

end Adds

/-- A step that appends nothing leaves the offset. -/
theorem offset_of_silent (h : ∀ i, ¬Adds es n i) :
    (stage es (n + 1)).offset = (stage es n).offset := by
  cases hstep : es[n]? with
  | none =>
    have hlength := List.getElem?_eq_none_iff.mp hstep
    rw [stage, stage, List.take_of_length_le hlength, List.take_of_length_le (by omega)]
  | some step =>
    have hsilent : step.appended? (stage es n) = none :=
      Option.eq_none_iff_forall_not_mem.mpr fun i happ => h i ⟨step, hstep, happ⟩
    rw [stage_succ hstep, offset, (Emission.perform_silent hsilent).1, offset]

/-- Every instruction was appended by some step. -/
theorem placed (h : k < (stage es n).offset) :
    ∃ m i, Adds es m i ∧ (stage es m).offset = k := by
  induction n with
  | zero => cases h
  | succ n ih =>
    by_cases hbefore : k < (stage es n).offset
    · exact ih hbefore
    · by_cases hadds : ∃ i, Adds es n i
      · obtain ⟨i, hadds⟩ := hadds
        rw [hadds.offset_succ] at h
        exact ⟨n, i, hadds, by omega⟩
      · rw [offset_of_silent fun i hi => hadds ⟨i, hi⟩] at h
        exact absurd h hbefore

/-! ## Labels -/

/-- The step of the given number is a jump, and gives the label. -/
def Issued (es : List Emission) (n : Nat) (label : Label) : Prop :=
  ∃ conditional, es[n]? = some (.jump conditional) ∧ ((stage es n).jump conditional).1 = label

/-- Every label that is patched was given before. -/
def Labelled (es : List Emission) : Prop :=
  ∀ (n : Nat) label, es[n]? = some (.patch label) → ∃ m < n, Issued es m label

/-- The step of the given number is the last one that patches the label. -/
structure LastPatch (es : List Emission) (label : Label) (n : Nat) : Prop where
  patches : es[n]? = some (.patch label)
  last : ∀ m : Nat, n < m → es[m]? ≠ some (.patch label)

theorem Issued.adds (h : Issued es n label) :
    Adds es n (label.jump Label.placeholder) ∧ (stage es n).offset = label.offset := by
  obtain ⟨conditional, hn, rfl⟩ := h
  exact ⟨⟨_, hn, rfl⟩, rfl⟩

/-- A label is the only one that an emitter gives for its offset. -/
theorem Issued.unique {other : Label} (h : Issued es n label) (h' : Issued es m other)
    (hoffset : label.offset = other.offset) : label = other := by
  obtain rfl : n = m :=
    h.adds.1.unique h'.adds.1 (h.adds.2.trans (hoffset.trans h'.adds.2.symm))
  obtain ⟨conditional, hn, rfl⟩ := h
  obtain ⟨conditional', hn', rfl⟩ := h'
  cases hn.symm.trans hn'
  rfl

theorem Issued.lt (h : Issued es m label) (hlt : m < n) : label.offset < (stage es n).offset :=
  h.adds.2 ▸ h.adds.1.offset_lt hlt

/-! ## What stays to the end -/

/-- An instruction stays to the end if no later step patches a label of its offset. -/
theorem finished_kept (hk : k < (stage es n).offset)
    (h : ∀ m label, n ≤ m → es[m]? = some (.patch label) → label.offset ≠ k) :
    (new.performAll es).code[k]? = (stage es n).code[k]? := by
  rw [← stage_finished es n]
  refine performAll_kept hk fun label hmem => ?_
  obtain ⟨m, hm⟩ := List.getElem?_of_mem hmem
  rw [List.getElem?_drop] at hm
  exact h (n + m) label (Nat.le_add_right n m) hm

theorem Adds.finished (hes : Labelled es) (h : Adds es n i) (hjump : ∀ label, ¬Issued es n label) :
    (new.performAll es).code[(stage es n).offset]? = some i := by
  rw [finished_kept (h.offset_lt (Nat.lt_succ_self n)), h.code]
  · exact Array.getElem?_push_size
  · intro m label _ hpatch heq
    obtain ⟨m', -, hissued⟩ := hes m label hpatch
    obtain rfl := hissued.adds.1.unique h (hissued.adds.2.trans heq)
    exact hjump label hissued

theorem LastPatch.finished (hes : Labelled es) (h : LastPatch es label n) :
    (new.performAll es).code[label.offset]? = some (label.jump (stage es n).offset) := by
  obtain ⟨m, hm, hissued⟩ := hes n label h.patches
  rw [finished_kept (hissued.lt (Nat.lt_succ_of_lt hm)), stage_succ h.patches]
  · exact Emission.perform_patched (hissued.lt hm)
  · intro m' other hle hpatch heq
    obtain ⟨m'', -, hother⟩ := hes m' other hpatch
    obtain rfl := hother.unique hissued heq
    exact h.last m' hle hpatch

theorem Issued.finished (hes : Labelled es) (h : Issued es n label)
    (hopen : ∀ m : Nat, es[m]? ≠ some (.patch label)) :
    (new.performAll es).code[label.offset]? = some (label.jump Label.placeholder) := by
  rw [finished_kept (h.lt (Nat.lt_succ_self n)), h.adds.1.code, ← h.adds.2]
  · exact Array.getElem?_push_size
  · intro m other _ hpatch heq
    obtain ⟨m', -, hother⟩ := hes m other hpatch
    obtain rfl := hother.unique h heq
    exact hopen m hpatch

/-- The line entered for an instruction stays to the end. -/
theorem Adds.line_finished (h : Adds es n i) :
    (new.performAll es).lines[(stage es n).offset]? = some (lastLine (es.take n)) := by
  obtain ⟨step, hn, happ⟩ := h
  have hbalanced : (stage es n).lines.size = (stage es n).offset :=
    performAll_balanced (by rfl) (es.take n)
  have hentered : (stage es (n + 1)).lines.toList =
      (stage es n).lines.toList ++ [lastLine (es.take n)] := by
    rw [stage_succ hn, Emission.perform_lines happ, Array.toList_push, stage, performAll_line]
    rfl
  obtain ⟨more, hmore⟩ := performAll_lines (stage es (n + 1)) (es.drop (n + 1))
  rw [stage_finished, hentered] at hmore
  rw [← Array.getElem?_toList, ← hmore, ← hbalanced, ← Array.length_toList, List.append_assoc,
    List.getElem?_append_right (Nat.le_refl _), Nat.sub_self]
  rfl

/-! ## The finished program -/

/-- What a finished program keeps of the steps in which it was written. -/
structure Books (es : List Emission) (p : Program) : Prop where
  /-- Every instruction has a line. -/
  lines : p.lines.size = p.code.size
  /-- A step that appends adds one instruction, at the offset before it. -/
  adds : ∀ n i, Adds es n i → (stage es (n + 1)).code = (stage es n).code.push i
  /-- Every other step adds none. -/
  silent : ∀ n, (∀ i, ¬Adds es n i) → (stage es (n + 1)).offset = (stage es n).offset
  /-- Every instruction of the program was added by a step, and by no other one. -/
  origin : ∀ k < p.code.size, ∃ n i, Adds es n i ∧ (stage es n).offset = k ∧
    ∀ m i', Adds es m i' → (stage es m).offset = k → m = n
  /-- An instruction has the line that was set last before it was added. -/
  line : ∀ n i, Adds es n i → p.lines[(stage es n).offset]? = some (lastLine (es.take n))
  /-- What is no forward jump stays as it was added. -/
  kept : ∀ n i, Adds es n i → (∀ label, ¬Issued es n label) →
    p.code[(stage es n).offset]? = some i
  /-- A forward jump goes to the offset at the last patch of its label. -/
  patched : ∀ n m label, Issued es n label → LastPatch es label m →
    p.code[label.offset]? = some (label.jump (stage es m).offset)
  /-- A forward jump whose label is never patched goes to the placeholder. -/
  unpatched : ∀ n label, Issued es n label → (∀ m : Nat, es[m]? ≠ some (.patch label)) →
    p.code[label.offset]? = some (label.jump Label.placeholder)
  /-- A step changes no instruction that is there, but for the jump of the label that it patches. -/
  codeKept : ∀ n step, es[n]? = some step → ∀ k < (stage es n).offset,
    (∀ label, step = .patch label → label.offset ≠ k) →
    (stage es (n + 1)).code[k]? = (stage es n).code[k]?
  /-- Lines and constants that are there stay, after the next step and in the program. -/
  linesKept : ∀ n, (stage es n).lines.toList <+: (stage es (n + 1)).lines.toList ∧
    (stage es n).lines.toList <+: p.lines.toList
  constantsKept : ∀ n, (stage es (n + 1)).constants.Extends (stage es n).constants ∧
    p.constants.Extends (stage es n).constants

/-- Whatever labels are open and however often each is patched, an emitter keeps its books. -/
theorem emitter_books {es : List Emission} (hes : Labelled es) (slotNames : Array String)
    (methods : Array MethodTable) :
    Books es ((new.performAll es).finish slotNames methods) := by
  have hnext : ∀ n, (stage es n).performAll ((es.take (n + 1)).drop n) = stage es (n + 1) :=
    fun n => stage_performAll es (Nat.le_succ n)
  constructor
  case lines => exact performAll_balanced (by rfl) es
  case adds => exact fun n i h => h.code
  case silent => exact fun n h => offset_of_silent h
  case origin =>
    intro k hk
    have hstage : stage es es.length = new.performAll es := by rw [stage, List.take_length]
    have hlast : k < (stage es es.length).offset := hstage ▸ hk
    obtain ⟨n, i, hadds, hoffset⟩ := placed hlast
    exact ⟨n, i, hadds, hoffset, fun m i' h' hoffset' =>
      h'.unique hadds (hoffset'.trans hoffset.symm)⟩
  case line => exact fun n i h => h.line_finished
  case kept => exact fun n i h => h.finished hes
  case patched => exact fun n m label _ h => h.finished hes
  case unpatched => exact fun n label h => h.finished hes
  case codeKept =>
    intro n step h k hk hpatch
    rw [stage_succ h]
    exact Emission.perform_kept hk hpatch
  case linesKept =>
    refine fun n => ⟨hnext n ▸ performAll_lines _ _, ?_⟩
    have hrest := performAll_lines (stage es n) (es.drop n)
    rwa [stage_finished] at hrest
  case constantsKept =>
    refine fun n => ⟨hnext n ▸ performAll_extends _ _, ?_⟩
    have hrest := performAll_extends (stage es n) (es.drop n)
    rwa [stage_finished] at hrest

/-- A label is patched twice, another one never: the first jump goes where the second patch was
made and stays a conditional one, and the second jump has no target. -/
theorem emitter_books_repatched :
    let exit : Label := ⟨0, true⟩
    let es : List Emission := [.setLine 3, .jump true, .patch exit, .emit .pop, .setLine 5,
      .jump false, .patch exit, .loop 1]
    let p := (new.performAll es).finish #[] #[]
    Labelled es ∧ Books es p ∧
      p.code = #[.jumpIfFalse 3, .pop, .jump Label.placeholder, .jump 1] ∧
      p.lines = #[3, 3, 5, 5] := by
  intro exit es p
  have hes : Labelled es := by
    intro n label h
    have hissued : Issued es 1 exit := ⟨true, rfl, rfl⟩
    have hn : n < 8 := (List.getElem?_eq_some_iff.mp h).1
    -- only the third and the seventh step are patches
    interval_cases n <;> cases h
    · exact ⟨1, by omega, hissued⟩
    · exact ⟨1, by omega, hissued⟩
  exact ⟨hes, emitter_books hes #[] #[], rfl, rfl⟩

end Emitter
end ScriptEngine
