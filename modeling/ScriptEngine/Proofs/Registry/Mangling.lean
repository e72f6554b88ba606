/-
Mangled names tell keys apart.

A mangled name is read from the left in one way only.  The digits of the length end where
the name begins, because no name begins with a digit.  The length says where the name
ends, whatever the name holds, and what is left is the arity.  So two keys with one mangled
name are one key (`mangle_injective`).
-/
import ScriptEngine.Mangle
import ScriptEngine.Proofs.Runs

namespace ScriptEngine
namespace FunctionKey

open Decimal (isDigit)

/-- A name that can be mangled: it is not empty, and it begins with no digit. -/
def ValidName (name : String) : Prop := ∃ c cs, name.toList = c :: cs ∧ isDigit c = false

theorem mangle_valid {k : FunctionKey} (h : ValidName k.name) :
    k.mangle = .ok (String.ofList (encode k.name.toList k.arity)) := by
  obtain ⟨c, cs, hname, hc⟩ := h
  rw [mangle, hname]
  simp [hc]

theorem validName_of_mangle {k : FunctionKey} {mangled : String} (h : k.mangle = .ok mangled) :
    ValidName k.name := by
  unfold mangle at h
  split at h
  · cases h
  · next c cs hname =>
    split at h
    · cases h
    · next hc => exact ⟨c, cs, hname, by simpa using hc⟩

theorem isDigit_of_mem_digitsOf {n : Nat} : ∀ c ∈ digitsOf n, isDigit c = true := by
  intro c hc
  rw [digitsOf, Nat.toString_eq_repr, Nat.toList_repr] at hc
  have hdigit := Nat.isDigit_of_mem_toDigits (by decide) (by decide) hc
  simpa [isDigit, Char.isDigit, Char.le_def] using hdigit

theorem digitsOf_injective {m n : Nat} (h : digitsOf m = digitsOf n) : m = n := by
  have hread := congrArg (fun ds => Nat.ofDigitChars 10 ds 0) h
  simpa [digitsOf] using hread

/-- Texts of one size that two equal texts begin with are equal. -/
theorem append_inj_of_byteCount {name other back rest : List Char}
    (h : name ++ back = other ++ rest) (hsize : byteCount name = byteCount other) :
    name = other ∧ back = rest := by
  induction name generalizing other with
  | nil =>
    cases other with
    | nil => exact ⟨rfl, h⟩
    | cons c other =>
      have hpos := c.utf8Size_pos
      simp only [byteCount] at hsize
      omega
  | cons c name ih =>
    cases other with
    | nil =>
      have hpos := c.utf8Size_pos
      simp only [byteCount] at hsize
      omega
    | cons d other =>
      obtain ⟨rfl, htail⟩ := List.cons.inj h
      obtain ⟨rfl, hback⟩ := ih htail (Nat.add_left_cancel hsize)
      exact ⟨rfl, hback⟩

theorem trailer_injective {a b : Arity} (h : trailer a = trailer b) : a = b := by
  cases a with
  | fixed m =>
    cases b with
    | fixed n => rw [digitsOf_injective (List.cons.inj h).2]
    | variadic => cases h
  | variadic =>
    cases b with
    | fixed n => cases h
    | variadic => rfl

/-- Digits end where a name begins. -/
theorem ValidName.ends_digits {name : String} (h : ValidName name) {ds : List Char}
    (hds : ∀ c ∈ ds, isDigit c = true) (back : List Char) :
    (ds ++ (name.toList ++ back)).takeWhile isDigit = ds ∧
      (ds ++ (name.toList ++ back)).dropWhile isDigit = name.toList ++ back := by
  obtain ⟨c, cs, hname, hc⟩ := h
  refine takeWhile_stop hds ?_
  rw [hname]
  rintro d ⟨⟩
  exact hc

theorem encode_split {name : String} (h : ValidName name) (a : Arity) :
    ((encode name.toList a).drop 3).takeWhile isDigit = digitsOf (byteCount name.toList) ∧
      ((encode name.toList a).drop 3).dropWhile isDigit = name.toList ++ trailer a :=
  h.ends_digits isDigit_of_mem_digitsOf (trailer a)

/-- Two keys with one mangled name are one key. -/
theorem mangle_injective {j k : FunctionKey} {mangled : String} (hj : j.mangle = .ok mangled)
    (hk : k.mangle = .ok mangled) : j = k := by
  have hvalid := validName_of_mangle hj
  have hvalid' := validName_of_mangle hk
  rw [mangle_valid hvalid, ← hk, mangle_valid hvalid', Except.ok.injEq, String.ofList_inj] at hj
  have hsplit := encode_split hvalid j.arity
  rw [hj, (encode_split hvalid' k.arity).1, (encode_split hvalid' k.arity).2] at hsplit
  have hsize := digitsOf_injective hsplit.1
  obtain ⟨hname, htrailer⟩ := append_inj_of_byteCount hsplit.2 hsize
  calc
    j = ⟨j.name, j.arity⟩ := rfl
    _ = ⟨k.name, k.arity⟩ := by rw [String.toList_inj.mp hname, trailer_injective htrailer]
    _ = k := rfl

end FunctionKey
end ScriptEngine
