/-
The number tokens are the numerals.

A numeral is a mantissa and an exponent that may be missing.  The mantissa ends before the
mark of the exponent, because the mark is neither a digit nor a point, and the exponent
ends behind its digits.  So the lexer splits a numeral as it is put together
(`Numeral.scans`), and what it splits off as a number is a numeral (`splitMantissa_mantissa`,
`splitExponent_exponent`).
-/
import ScriptEngine.Proofs.Token.Scanning

namespace ScriptEngine
namespace Lexer

open Decimal (isDigit)

def Digits (cs : List Char) : Prop := ∀ c ∈ cs, isDigit c = true

/-- Digits, or digits around a point with at least one of them on either side. -/
inductive Mantissa : List Char → Prop
  | whole {ds : List Char} : Digits ds → ds ≠ [] → Mantissa ds
  | point {ds fs : List Char} : Digits ds → Digits fs → ds ≠ [] ∨ fs ≠ [] →
      Mantissa (ds ++ '.' :: fs)

/-- Nothing, or a mark, a sign that may be missing, and digits. -/
inductive Exponent : List Char → Prop
  | none : Exponent []
  | some {mark : Char} {sign ds : List Char} : mark = 'e' ∨ mark = 'E' →
      sign = [] ∨ sign = ['+'] ∨ sign = ['-'] → Digits ds → ds ≠ [] →
      Exponent (mark :: (sign ++ ds))

def Numeral (cs : List Char) : Prop :=
  ∃ mantissa exponent, cs = mantissa ++ exponent ∧ Mantissa mantissa ∧ Exponent exponent

/-- The text ends a mantissa before it, whatever the mantissa is. -/
def EndsMantissa (rest : List Char) : Prop :=
  ∀ c, rest.head? = some c → isDigit c = false ∧ c ≠ '.'

theorem Mantissa.split {mantissa rest : List Char} (h : Mantissa mantissa)
    (hrest : EndsMantissa rest) : splitMantissa (mantissa ++ rest) = (mantissa, rest) := by
  have hends : ∀ c, rest.head? = some c → isDigit c = false := fun c hc => (hrest c hc).1
  cases h with
  | whole hds hne =>
    obtain ⟨htake, hdrop⟩ := takeWhile_stop hds hends
    unfold splitMantissa
    rw [htake, hdrop]
    split
    · next more => exact absurd rfl (hrest '.' rfl).2
    · rfl
  | @point ds fs hds hfs hne =>
    have hpoint : ∀ c, ('.' :: (fs ++ rest)).head? = some c → isDigit c = false := by
      rintro c ⟨⟩
      decide
    obtain ⟨htake, hdrop⟩ := takeWhile_stop hds hpoint
    obtain ⟨hfraction, hbehind⟩ := takeWhile_stop hfs hends
    rw [List.append_assoc, List.cons_append]
    unfold splitMantissa
    rw [htake, hdrop]
    simp only [hfraction, hbehind]

theorem startsNumber_digit {c : Char} (h : isDigit c = true) (rest : List Char) :
    startsNumber (c :: rest) = true := by
  rw [startsNumber_cons, h, Bool.true_or]

theorem Mantissa.startsNumber {mantissa : List Char} (h : Mantissa mantissa) (rest : List Char) :
    startsNumber (mantissa ++ rest) = true := by
  have digits : ∀ {ds : List Char}, Digits ds → ds ≠ [] → ∀ more,
      Lexer.startsNumber (ds ++ more) = true := by
    intro ds hds hne more
    obtain ⟨d, ds, rfl⟩ := List.exists_cons_of_ne_nil hne
    exact startsNumber_digit (hds d List.mem_cons_self) _
  cases h with
  | whole hds hne => exact digits hds hne rest
  | @point ds fs hds hfs hne =>
    rw [List.append_assoc]
    cases ds with
    | cons d ds => exact digits hds (by simp) _
    | nil =>
      obtain ⟨f, fs, rfl⟩ := List.exists_cons_of_ne_nil (hne.resolve_left (absurd rfl))
      exact hfs f List.mem_cons_self

theorem splitSign_digit {d : Char} (hd : isDigit d = true) (rest : List Char) :
    splitSign (d :: rest) = ([], d :: rest) := by
  have hsplit : splitSign [] = ([], []) := rfl
  exact (splitSign_stable hsplit).2.2 d rest hd

theorem splitSign_written {sign : List Char} (h : sign = [] ∨ sign = ['+'] ∨ sign = ['-'])
    {d : Char} (hd : isDigit d = true) (rest : List Char) :
    splitSign (sign ++ d :: rest) = (sign, d :: rest) := by
  rcases h with rfl | rfl | rfl
  · exact splitSign_digit hd rest
  · rfl
  · rfl

theorem Exponent.split {exponent rest : List Char} (h : Exponent exponent)
    (hrest : Separated rest) : splitExponent (exponent ++ rest) = (exponent, rest, true) := by
  have hends : EndsLike [] rest := .inr hrest
  cases h with
  | none =>
    have hsplit : splitExponent [] = ([], [], true) := rfl
    exact (splitExponent_stable hsplit).2.2 rest hends
  | @some mark sign ds hmark hsign hds hne =>
    have hrun := takeWhile_stop hds (hends.stop nofun fun _ => isBlank_isDigit)
    obtain ⟨d, ds, rfl⟩ := List.exists_cons_of_ne_nil hne
    have hsplit := splitSign_written hsign (hds d List.mem_cons_self) (ds ++ rest)
    rw [← List.cons_append] at hsplit
    simp only [List.cons_append, List.append_assoc, splitExponent, if_pos hmark] at hrun hsplit ⊢
    simp only [hsplit, hrun]
    rfl

theorem Exponent.endsMantissa {exponent rest : List Char} (h : Exponent exponent)
    (hrest : Separated rest) : EndsMantissa (exponent ++ rest) := by
  intro c hc
  cases h with
  | none =>
    have hblank := hrest c hc
    exact ⟨isBlank_isDigit hblank, isBlank_ne hblank (by decide)⟩
  | some hmark =>
    obtain rfl := Option.some.inj hc
    rcases hmark with rfl | rfl <;> decide

/-- A numeral is scanned as one number. -/
theorem Numeral.scans {cs rest : List Char} (h : Numeral cs) (hrest : Separated rest) :
    Scans cs .number (String.ofList cs) rest := by
  obtain ⟨mantissa, exponent, rfl, hmantissa, hexponent⟩ := h
  intro l
  rw [List.append_assoc, scanToken_number (hmantissa.startsNumber _)]
  simp only [scanNumber, hmantissa.split (hexponent.endsMantissa hrest), hexponent.split hrest,
    if_true]
  rfl

theorem splitMantissa_mantissa {cs : List Char} (h : startsNumber cs = true) :
    Mantissa (splitMantissa cs).1 := by
  have hstart : cs.takeWhile isDigit = [] → ∃ d rest, cs = '.' :: d :: rest ∧ isDigit d = true := by
    intro hnone
    unfold startsNumber at h
    split at h
    · next d rest => exact ⟨d, rest, rfl, h⟩
    · simp [h] at hnone
    · cases h
  unfold splitMantissa
  split
  · next rest hpoint =>
    refine .point mem_takeWhile mem_takeWhile ?_
    by_cases hnone : cs.takeWhile isDigit = []
    · obtain ⟨d, more, rfl, hd⟩ := hstart hnone
      obtain rfl : rest = d :: more := (List.cons.inj hpoint).2.symm
      exact .inr (by simp [hd])
    · exact .inl hnone
  · next hpoint =>
    refine .whole mem_takeWhile fun hnone => ?_
    obtain ⟨d, more, rfl, -⟩ := hstart hnone
    exact hpoint _ rfl

theorem splitExponent_exponent {cs : List Char} (h : (splitExponent cs).2.2 = true) :
    Exponent (splitExponent cs).1 := by
  have hsign : ∀ more, (splitSign more).1 = [] ∨ (splitSign more).1 = ['+'] ∨
      (splitSign more).1 = ['-'] := by
    intro more
    unfold splitSign
    split
    · exact .inr (.inl rfl)
    · exact .inr (.inr rfl)
    · exact .inl rfl
  unfold splitExponent at h ⊢
  split
  · exact .none
  · next mark more =>
    split
    · next hmark =>
      simp only [if_pos hmark, Bool.not_eq_true', List.isEmpty_eq_false_iff] at h
      exact .some hmark (hsign more) mem_takeWhile h
    · exact .none

theorem Numeral.solid {cs : List Char} (h : Numeral cs) :
    ∃ c more, cs = c :: more ∧ Text.isBlank c = false ∧ c ≠ '/' := by
  obtain ⟨mantissa, exponent, rfl, hmantissa, -⟩ := h
  have hstarts := hmantissa.startsNumber exponent
  cases hcs : mantissa ++ exponent with
  | nil =>
    rw [hcs] at hstarts
    cases hstarts
  | cons c more =>
    refine ⟨c, more, rfl, ?_, ?_⟩
    · cases hblank : Text.isBlank c with
      | false => rfl
      | true =>
        have hpoint : c ≠ '.' := isBlank_ne hblank (by decide)
        rw [hcs, startsNumber_cons, isBlank_isDigit hblank] at hstarts
        simp [hpoint] at hstarts
    · rintro rfl
      rw [hcs, startsNumber_cons] at hstarts
      cases hstarts

end Lexer
end ScriptEngine
