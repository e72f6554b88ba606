/-
The tables of methods.

The table of a method is filled from the registrations in their order, and a later one
for the same class replaces an earlier one.  So looking a class up in the table finds
the last registration for it (`handleFor?_tableOf`), and the table has a sole class
exactly if all registrations are for one class (`soleClass?_tableOf`).
-/
import ScriptEngine.Compiler.Compile

namespace ScriptEngine

theorem lookup_filter_ne {β : Type} {a b : String} (hne : a ≠ b) (xs : List (String × β)) :
    (xs.filter (fun entry => entry.1 ≠ b)).lookup a = xs.lookup a := by
  induction xs with
  | nil => rfl
  | cons x xs ih =>
    by_cases hx : x.1 = b
    · rw [List.filter_cons_of_neg (by simpa using hx), ih, List.lookup_cons, hx,
        beq_false_of_ne hne]
    · rw [List.filter_cons_of_pos (by simpa using hx), List.lookup_cons, List.lookup_cons, ih]

namespace MethodTable

theorem handleFor?_insert (t : MethodTable) (c className : String) (handle : Nat) :
    (t.insert c handle).handleFor? className =
      if className = c then some handle else t.handleFor? className := by
  unfold handleFor? insert
  rw [List.lookup_append]
  by_cases h : className = c
  · subst h
    have hnone : (t.classes.filter (fun entry => entry.1 ≠ className)).lookup className = none := by
      rw [List.lookup_eq_none_iff]
      intro entry hentry
      have := (List.mem_filter.mp hentry).2
      simp only [decide_eq_true_eq] at this
      exact bne_iff_ne.mpr fun h => this h.symm
    rw [hnone, if_pos rfl, List.lookup_cons, beq_self_eq_true]
    rfl
  · rw [lookup_filter_ne h, if_neg h, List.lookup_cons, beq_false_of_ne h]
    cases t.classes.lookup className <;> rfl

/-- The table after more registrations. -/
def fill (t : MethodTable) (known : List (String × Nat)) : MethodTable :=
  known.foldl (fun t (className, handle) => t.insert className handle) t

theorem fill_cons (t : MethodTable) (entry : String × Nat) (known : List (String × Nat)) :
    t.fill (entry :: known) = (t.insert entry.1 entry.2).fill known := rfl

theorem fill_key (known : List (String × Nat)) (t : MethodTable) :
    (t.fill known).name = t.name ∧ (t.fill known).argc = t.argc := by
  induction known generalizing t with
  | nil => exact ⟨rfl, rfl⟩
  | cons entry known ih => exact ih (t.insert entry.1 entry.2)

theorem handleFor?_fill (known : List (String × Nat)) (t : MethodTable) (className : String) :
    (t.fill known).handleFor? className =
      (known.reverse.lookup className).or (t.handleFor? className) := by
  induction known generalizing t with
  | nil => rfl
  | cons entry known ih =>
    rw [fill_cons, ih, handleFor?_insert, List.reverse_cons, List.lookup_append, Option.or_assoc]
    by_cases h : className = entry.1
    · rw [if_pos h, List.lookup_cons, h, beq_self_eq_true]
      rfl
    · rw [if_neg h, List.lookup_cons, beq_false_of_ne h]
      rfl

/-- A class that is in a table stays there. -/
theorem mem_insert {t : MethodTable} {c className : String} {handle : Nat}
    (h : c = className ∨ c ∈ t.classes.map (·.1)) :
    c ∈ (t.insert className handle).classes.map (·.1) := by
  rw [insert, List.map_append, List.mem_append]
  by_cases hc : c = className
  · exact .inr (by simp [hc])
  · obtain ⟨entry, hentry, rfl⟩ := List.mem_map.mp (h.resolve_left hc)
    exact .inl (List.mem_map_of_mem (List.mem_filter.mpr ⟨hentry, by simpa using hc⟩))

theorem mem_fill {known : List (String × Nat)} {t : MethodTable} {c : String}
    (h : c ∈ known.map (·.1) ∨ c ∈ t.classes.map (·.1)) :
    c ∈ (t.fill known).classes.map (·.1) := by
  induction known generalizing t with
  | nil => exact h.resolve_left (by simp)
  | cons entry known ih =>
    rw [fill_cons]
    rcases h with h | h
    · rcases List.mem_cons.mp h with h | h
      · exact ih (.inr (mem_insert (.inl h)))
      · exact ih (.inl h)
    · exact ih (.inr (mem_insert (.inr h)))

/-- What a table has, it was given. -/
theorem of_mem_fill {known : List (String × Nat)} {t : MethodTable} {entry : String × Nat}
    (h : entry ∈ (t.fill known).classes) : entry ∈ known ∨ entry ∈ t.classes := by
  induction known generalizing t with
  | nil => exact .inr h
  | cons first known ih =>
    rw [fill_cons] at h
    rcases ih h with h | h
    · exact .inl (List.mem_cons_of_mem _ h)
    · rcases List.mem_append.mp h with h | h
      · exact .inr (List.mem_filter.mp h).1
      · exact .inl (List.mem_singleton.mp h ▸ List.mem_cons_self)

theorem fill_of_sole {known : List (String × Nat)} {t : MethodTable} {c : String} {handle : Nat}
    (ht : t.classes = [(c, handle)]) (h : known.all (·.1 = c)) :
    ∃ handle', (t.fill known).classes = [(c, handle')] := by
  induction known generalizing t handle with
  | nil => exact ⟨handle, ht⟩
  | cons entry known ih =>
    rw [List.all_cons, Bool.and_eq_true, decide_eq_true_eq] at h
    rw [fill_cons]
    refine @ih _ entry.2 ?_ h.2
    rw [insert, ht, h.1, List.filter_cons_of_neg (by simp)]
    rfl

theorem soleClass?_fill (name : String) (argc : Nat) (entry : String × Nat)
    (known : List (String × Nat)) :
    ((new name argc).fill (entry :: known)).soleClass? =
      if known.all (·.1 = entry.1) then some entry.1 else none := by
  rw [fill_cons]
  by_cases h : known.all (·.1 = entry.1)
  · have hfirst : ((new name argc).insert entry.1 entry.2).classes = [(entry.1, entry.2)] := rfl
    obtain ⟨handle, hfill⟩ := fill_of_sole hfirst h
    rw [if_pos h, soleClass?, hfill]
  · rw [if_neg h]
    have hfirst : entry.1 ∈ (((new name argc).insert entry.1 entry.2).fill known).classes.map (·.1) :=
      mem_fill (.inr (mem_insert (.inl rfl)))
    obtain ⟨other, hother, hne⟩ : ∃ other ∈ known, other.1 ≠ entry.1 := by
      simpa using h
    have hsecond : other.1 ∈ (((new name argc).insert entry.1 entry.2).fill known).classes.map (·.1) :=
      mem_fill (.inl (List.mem_map_of_mem hother))
    unfold soleClass?
    split
    · next c handle hsole =>
      rw [hsole] at hfirst hsecond
      simp only [List.map_cons, List.map_nil, List.mem_singleton] at hfirst hsecond
      exact absurd (hsecond.trans hfirst.symm) hne
    · rfl

end MethodTable

namespace Compiler

variable (functions : FunctionRegistry) (method : String) (argc : Nat)

/-- The table of a method has its name and number of arguments. -/
theorem tableOf_key : (tableOf functions method argc).name = method ∧
    (tableOf functions method argc).argc = argc :=
  MethodTable.fill_key _ _

theorem handleFor?_tableOf (className : String) :
    (tableOf functions method argc).handleFor? className =
      (functions.implementations method argc).reverse.lookup className :=
  (MethodTable.handleFor?_fill _ _ _).trans (Option.or_none)

theorem mem_implementations {entry : String × Nat}
    (h : entry ∈ (tableOf functions method argc).classes) :
    entry ∈ functions.implementations method argc :=
  (MethodTable.of_mem_fill h).resolve_right List.not_mem_nil

theorem soleClass?_tableOf : (tableOf functions method argc).soleClass? =
    match functions.implementations method argc with
    | [] => none
    | entry :: known => if known.all (·.1 = entry.1) then some entry.1 else none := by
  have hfill : tableOf functions method argc =
      (MethodTable.new method argc).fill (functions.implementations method argc) := rfl
  rw [hfill]
  cases functions.implementations method argc with
  | nil => rfl
  | cons entry known => exact MethodTable.soleClass?_fill method argc entry known

end Compiler
end ScriptEngine
