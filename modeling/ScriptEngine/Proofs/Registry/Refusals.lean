/-
Why a text is no mangled name.

Behind the mark a text has two parts: a run of digits, and what follows (`Parts`).  The digits
have to name a length, the length has to end where a character ends, and what is left has to be
a trailer.  The first of these that fails gives the error (`demangle_refuses`).

The error of a length says that the length exceeds the bytes behind it.  It is also given
for a length that ends inside a character, which exceeds nothing (`length_inside_letter`).
-/
import ScriptEngine.Proofs.Registry.Demangling

namespace ScriptEngine
namespace FunctionKey

open Decimal (isDigit ofDigits)

/-! ## Parts -/

/-- The parts of a text behind the mark: a run of digits, and the rest from the first character that
is none. -/
structure Parts (input : String) (digits body : List Char) : Prop where
  text : input.toList = mark ++ (digits ++ body)
  run : ∀ c ∈ digits, isDigit c = true
  stop : ∀ c, body.head? = some c → isDigit c = false

/-- The digits name a positive number that a size can hold. -/
structure NamesLength (digits : List Char) (n : Nat) : Prop where
  nonempty : digits ≠ []
  value : ofDigits digits = n
  positive : 0 < n
  fits : n < sizeLimit

/-- That many bytes of a text end inside a character. -/
def EndsInside (n : Nat) (cs : List Char) : Prop :=
  ∃ front c back, cs = front ++ c :: back ∧ byteCount front < n ∧ n < byteCount front + c.utf8Size

theorem parts_or_unmarked (input : String) :
    (∃ digits body, Parts input digits body) ∨ ∀ rest, input.toList ≠ mark ++ rest := by
  by_cases h : ∃ rest, input.toList = mark ++ rest
  · obtain ⟨rest, hrest⟩ := h
    refine .inl ⟨rest.takeWhile isDigit, rest.dropWhile isDigit, ?_, mem_takeWhile,
      head_dropWhile rest⟩
    rw [List.takeWhile_append_dropWhile, hrest]
  · exact .inr fun rest hrest => h ⟨rest, hrest⟩

theorem Parts.body_unique {input : String} {digits body run rest : List Char}
    (h : Parts input digits body) (h' : Parts input run rest) : body = rest := by
  have heq := List.append_cancel_left (h.text.symm.trans h'.text)
  rw [← (takeWhile_stop h.run h.stop).2, heq, (takeWhile_stop h'.run h'.stop).2]

theorem length_or_none (digits : List Char) :
    (∃ n, NamesLength digits n) ∨
      (digits = [] ∨ ofDigits digits = 0 ∨ sizeLimit ≤ ofDigits digits) := by
  by_cases hnil : digits = []
  · exact .inr (.inl hnil)
  · by_cases hzero : ofDigits digits = 0
    · exact .inr (.inr (.inl hzero))
    · by_cases hlimit : sizeLimit ≤ ofDigits digits
      · exact .inr (.inr (.inr hlimit))
      · exact .inl ⟨_, hnil, rfl, Nat.pos_of_ne_zero hzero, Nat.lt_of_not_le hlimit⟩

theorem NamesLength.read {digits : List Char} {n : Nat} (h : NamesLength digits n) :
    readSize? digits = some n := by
  have hfits := h.fits
  rw [readSize?, h.value, if_neg (by simpa [h.nonempty] using hfits)]

theorem byteCount_append (front back : List Char) :
    byteCount (front ++ back) = byteCount front + byteCount back := by
  induction front with
  | nil => exact (Nat.zero_add _).symm
  | cons c front ih => rw [List.cons_append, byteCount, byteCount, ih, Nat.add_assoc]

/-- A length that ends inside a character is no greater than the bytes there are. -/
theorem EndsInside.lt_byteCount {n : Nat} {cs : List Char} (h : EndsInside n cs) :
    n < byteCount cs := by
  obtain ⟨front, c, back, rfl, -, hlt⟩ := h
  rw [byteCount_append, byteCount]
  omega

theorem endsInside_cons {n : Nat} {c : Char} {cs : List Char} (h : c.utf8Size ≤ n) :
    EndsInside n (c :: cs) ↔ EndsInside (n - c.utf8Size) cs := by
  constructor
  · rintro ⟨front, d, back, heq, hlow, hhigh⟩
    cases front with
    | nil =>
      obtain ⟨rfl, rfl⟩ := List.cons.inj heq
      rw [byteCount] at hhigh
      omega
    | cons b front =>
      obtain ⟨rfl, rfl⟩ := List.cons.inj heq
      rw [byteCount] at hlow hhigh
      exact ⟨front, d, back, rfl, by omega, by omega⟩
  · rintro ⟨front, d, back, rfl, hlow, hhigh⟩
    refine ⟨c :: front, d, back, rfl, ?_, ?_⟩ <;> rw [byteCount] <;> omega

/-- A text cannot be split behind its end, nor inside a character. -/
theorem splitBytes?_eq_none {n : Nat} {cs : List Char} :
    splitBytes? n cs = none ↔ byteCount cs < n ∨ EndsInside n cs := by
  induction cs generalizing n with
  | nil =>
    cases n with
    | zero =>
      refine iff_of_false (Option.some_ne_none _) ?_
      rintro (h | ⟨front, c, back, -, h, -⟩) <;> exact Nat.not_lt_zero _ h
    | succ n => exact iff_of_true rfl (.inl n.succ_pos)
  | cons c cs ih =>
    cases n with
    | zero =>
      refine iff_of_false (Option.some_ne_none _) ?_
      rintro (h | ⟨front, c, back, -, h, -⟩) <;> exact Nat.not_lt_zero _ h
    | succ n =>
      rw [splitBytes?]
      split
      · next hle =>
        rw [Option.map_eq_none_iff, ih, endsInside_cons hle, byteCount]
        exact or_congr_left (by omega)
      · next hlt =>
        exact iff_of_true rfl (.inr ⟨[], c, cs, rfl, n.succ_pos, by rw [byteCount]; omega⟩)

theorem readTrailer_error {input : String} {cs : List Char} {e : MangleError}
    (h : readTrailer input cs = .error e) :
    cs = ['_'] ∧ e = .truncatedTrailer input ∨ cs ≠ ['_'] ∧ e = .invalidTrailer input := by
  unfold readTrailer at h
  split at h
  · cases h
  · cases h
    exact .inl ⟨rfl, rfl⟩
  · next hbar =>
    split at h
    · cases h
    · cases h
      exact .inr ⟨fun heq => hbar (List.cons.inj heq).2, rfl⟩
  · next hbar hother =>
    cases h
    exact .inr ⟨hbar, rfl⟩

/-- A bar alone is a trailer that ends too early; what else is no trailer is malformed. -/
theorem readTrailer_eq_error {input : String} {cs : List Char} {e : MangleError} :
    readTrailer input cs = .error e ↔
      cs = ['_'] ∧ e = .truncatedTrailer input ∨
        cs ≠ ['_'] ∧ (∀ a zeros, ArityFits a → cs ≠ paddedTrailer zeros a) ∧
          e = .invalidTrailer input := by
  constructor
  · intro h
    refine (readTrailer_error h).imp_right ?_
    rintro ⟨hbar, rfl⟩
    refine ⟨hbar, fun a zeros hfits hpadded => ?_, rfl⟩
    rw [readTrailer_eq_ok.mpr ⟨hfits, zeros, hpadded⟩] at h
    cases h
  · rintro (⟨rfl, rfl⟩ | ⟨hbar, hnone, rfl⟩)
    · rfl
    · cases hread : readTrailer input cs with
      | ok a =>
        obtain ⟨hfits, zeros, hpadded⟩ := readTrailer_eq_ok.mp hread
        exact absurd hpadded (hnone a zeros hfits)
      | error e' =>
        rcases readTrailer_error hread with ⟨rfl, -⟩ | ⟨-, rfl⟩
        · exact absurd rfl hbar
        · rfl

/-! ## Reasons -/

/-- Why a text is no mangled name, and the error that says so. -/
inductive Reason (input : String) : MangleError → Prop where
  | noMark (h : ∀ rest, input.toList ≠ mark ++ rest) : Reason input (.invalidPrefix input)
  /-- There is no digit, or the number is zero, or no size can hold it. -/
  | noLength {digits body : List Char} (parts : Parts input digits body)
      (h : digits = [] ∨ ofDigits digits = 0 ∨ sizeLimit ≤ ofDigits digits) :
      Reason input (.invalidLength input)
  | tooLong {digits body : List Char} {n : Nat} (parts : Parts input digits body)
      (length : NamesLength digits n) (h : byteCount body < n) :
      Reason input (.lengthMismatch input n (byteCount body))
  /-- The length does not exceed the bytes behind it, but there is no character boundary. -/
  | inside {digits body : List Char} {n : Nat} (parts : Parts input digits body)
      (length : NamesLength digits n) (h : EndsInside n body) :
      Reason input (.lengthMismatch input n (byteCount body))
  | bar {digits name : List Char} (parts : Parts input digits (name ++ ['_']))
      (length : NamesLength digits (byteCount name)) : Reason input (.truncatedTrailer input)
  /-- What follows the name is neither a bar nor the trailer of an arity. -/
  | noTrailer {digits name back : List Char} (parts : Parts input digits (name ++ back))
      (length : NamesLength digits (byteCount name)) (bar : back ≠ ['_'])
      (h : ∀ a zeros, ArityFits a → back ≠ paddedTrailer zeros a) :
      Reason input (.invalidTrailer input)

section
variable {input : String} {digits body : List Char}

theorem demangle_noMark (h : ∀ rest, input.toList ≠ mark ++ rest) :
    demangle input = .error (.invalidPrefix input) := by
  unfold demangle
  split
  · next rest hinput => exact absurd hinput (h rest)
  · rfl

theorem Parts.demangle_noLength (h : Parts input digits body)
    (hnone : digits = [] ∨ ofDigits digits = 0 ∨ sizeLimit ≤ ofDigits digits) :
    demangle input = .error (.invalidLength input) := by
  obtain ⟨hrun, -⟩ := takeWhile_stop h.run h.stop
  have hsize : readSize? digits = none ∨ readSize? digits = some 0 := by
    unfold readSize?
    rcases hnone with rfl | hzero | hlimit
    · exact .inl rfl
    · rw [hzero]
      split
      · exact .inl rfl
      · exact .inr rfl
    · exact .inl (if_pos (.inr hlimit))
  unfold demangle
  rw [h.text]
  rcases hsize with hsize | hsize <;> simp [mark, hrun, hsize]

theorem Parts.demangle_unsplit {n : Nat} (h : Parts input digits body)
    (hlength : NamesLength digits n) (hsplit : splitBytes? n body = none) :
    demangle input = .error (.lengthMismatch input n (byteCount body)) := by
  obtain ⟨hrun, hbody⟩ := takeWhile_stop h.run h.stop
  obtain ⟨m, rfl⟩ := Nat.exists_eq_succ_of_ne_zero (Nat.ne_of_gt hlength.positive)
  unfold demangle
  rw [h.text]
  simp only [mark, List.cons_append, List.nil_append, hrun, hbody, hlength.read, hsplit]

theorem Parts.demangle_split {name back : List Char} (h : Parts input digits (name ++ back))
    (hlength : NamesLength digits (byteCount name)) :
    demangle input =
      (readTrailer input back).map fun arity => ⟨String.ofList name, arity⟩ := by
  obtain ⟨hrun, hbody⟩ := takeWhile_stop h.run h.stop
  have hsplit := splitBytes?_append name back
  have hsize := hlength.read
  obtain ⟨m, hm⟩ := Nat.exists_eq_succ_of_ne_zero (Nat.ne_of_gt hlength.positive)
  rw [hm] at hsize hsplit
  unfold demangle
  rw [h.text]
  simp only [mark, List.cons_append, List.nil_append, hrun, hbody, hsize, hsplit]

end

theorem reason_of_refused {input : String} {e : MangleError} (h : demangle input = .error e) :
    Reason input e := by
  rcases parts_or_unmarked input with ⟨digits, body, parts⟩ | hmark
  · rcases length_or_none digits with ⟨n, hlength⟩ | hnone
    · cases hsplit : splitBytes? n body with
      | none =>
        rw [parts.demangle_unsplit hlength hsplit] at h
        cases h
        rcases splitBytes?_eq_none.mp hsplit with hlong | hinside
        · exact .tooLong parts hlength hlong
        · exact .inside parts hlength hinside
      | some split =>
        obtain ⟨rfl, rfl⟩ := splitBytes?_eq_some.mp hsplit
        rw [parts.demangle_split hlength] at h
        cases htrailer : readTrailer input split.2 with
        | ok a =>
          rw [htrailer] at h
          cases h
        | error e' =>
          rw [htrailer] at h
          cases h
          rcases readTrailer_eq_error.mp htrailer with ⟨hbar, rfl⟩ | ⟨hbar, hnone, rfl⟩
          · exact .bar (hbar ▸ parts) hlength
          · exact .noTrailer parts hlength hbar hnone
    · rw [parts.demangle_noLength hnone] at h
      cases h
      exact .noLength parts hnone
  · rw [demangle_noMark hmark] at h
    cases h
    exact .noMark hmark

theorem refused_of_reason {input : String} {e : MangleError} (h : Reason input e) :
    demangle input = .error e := by
  cases h with
  | noMark h => exact demangle_noMark h
  | noLength parts h => exact parts.demangle_noLength h
  | tooLong parts length h =>
    exact parts.demangle_unsplit length (splitBytes?_eq_none.mpr (.inl h))
  | inside parts length h =>
    exact parts.demangle_unsplit length (splitBytes?_eq_none.mpr (.inr h))
  | bar parts length => exact parts.demangle_split length
  | noTrailer parts length bar h =>
    rw [parts.demangle_split length, readTrailer_eq_error.mpr (.inr ⟨bar, h, rfl⟩)]
    rfl

/-- How a text is refused. -/
structure Refuses (input : String) : Prop where
  /-- A text is refused exactly for the reason that the error tells, and the error carries it. -/
  reason : ∀ e, demangle input = .error e ↔ Reason input e
  /-- The length of the error does not exceed the bytes exactly if it ends inside a character. -/
  mismatch : ∀ n available, demangle input = .error (.lengthMismatch input n available) →
    (n ≤ available ↔ ∃ digits body, Parts input digits body ∧ EndsInside n body)

theorem demangle_refuses (input : String) : Refuses input where
  reason _ := ⟨reason_of_refused, refused_of_reason⟩
  mismatch n available h := by
    cases reason_of_refused h with
    | tooLong parts length hlong =>
      refine iff_of_false (Nat.not_le_of_lt hlong) ?_
      rintro ⟨run, rest, parts', hinside⟩
      rw [← parts.body_unique parts'] at hinside
      exact Nat.lt_asymm hlong hinside.lt_byteCount
    | inside parts length hinside =>
      exact iff_of_true (Nat.le_of_lt hinside.lt_byteCount) ⟨_, _, parts, hinside⟩

/-- A length that ends inside a letter of two bytes does not exceed the two bytes. -/
theorem length_inside_letter :
    demangle "_SR1é" = .error (.lengthMismatch "_SR1é" 1 2) ∧ ¬2 < 1 := ⟨rfl, by decide⟩

end FunctionKey
end ScriptEngine
