/-
Runs of characters of one class.

A text begins with a run of the characters of a class, and what is left of it begins with a
character of another class or not at all.
-/

namespace ScriptEngine

variable {p : Char → Bool}

theorem mem_takeWhile {cs : List Char} : ∀ c ∈ cs.takeWhile p, p c = true :=
  fun _ h => List.all_eq_true.mp List.all_takeWhile _ h

theorem notMem_takeWhile {c : Char} (h : p c = false) (cs : List Char) : c ∉ cs.takeWhile p := by
  intro hc
  rw [mem_takeWhile c hc] at h
  cases h

theorem head_dropWhile (cs : List Char) : ∀ c, (cs.dropWhile p).head? = some c → p c = false := by
  intro c hc
  have := List.head?_dropWhile_not p cs
  rw [hc] at this
  simpa using this

theorem takeWhile_stop {span rest : List Char} (hspan : ∀ c ∈ span, p c = true)
    (hrest : ∀ c, rest.head? = some c → p c = false) :
    (span ++ rest).takeWhile p = span ∧ (span ++ rest).dropWhile p = rest := by
  rw [List.takeWhile_append_of_pos hspan, List.dropWhile_append_of_pos hspan]
  cases rest with
  | nil => simp
  | cons c rest => simp [hrest c rfl]

/-- A text that begins with a run of a class is the run and a text that begins otherwise in one way
only. -/
theorem run_unique {span other rest rest' : List Char} (hspan : ∀ c ∈ span, p c = true)
    (hother : ∀ c ∈ other, p c = true) (hrest : ∀ c, rest.head? = some c → p c = false)
    (hrest' : ∀ c, rest'.head? = some c → p c = false) (h : span ++ rest = other ++ rest') :
    span = other ∧ rest = rest' := by
  have hleft := takeWhile_stop hspan hrest
  have hright := takeWhile_stop hother hrest'
  rw [h] at hleft
  exact ⟨hleft.1.symm.trans hright.1, hleft.2.symm.trans hright.2⟩

theorem toList_pushn (s : String) (c : Char) (n : Nat) :
    (s.pushn c n).toList = s.toList ++ List.replicate n c := by
  rw [String.pushn_eq_repeat_push]
  induction n with
  | zero => exact (List.append_nil _).symm
  | succ n ih =>
    rw [Nat.repeat, String.toList_push, ih, List.append_assoc, ← List.replicate_succ']

/-- A run ends where another text begins with a character of another class. -/
theorem takeWhile_run (cs : List Char) {other : List Char}
    (h : ∀ c, other.head? = some c → p c = false) :
    (cs.takeWhile p ++ other).takeWhile p = cs.takeWhile p ∧
      (cs.takeWhile p ++ other).dropWhile p = other := takeWhile_stop mem_takeWhile h

end ScriptEngine
