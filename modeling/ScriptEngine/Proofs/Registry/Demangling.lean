/-
Mangled names are read back.

Every part of a mangled name is read by a function of its own, and for each of them there is
a lemma that says exactly what it accepts: digits (`readSize?_eq_some`), a text of a number of
bytes (`splitBytes?_eq_some`), a trailer (`readTrailer_eq_ok`).  Put together they say exactly
which texts are read as a key: its mangled name, and that name with zeros before its two numbers
(`demangle_padded`, `padded_of_demangle`).

So a key is read back from its mangled name (`mangle_reversible`), but it is also read from
other texts (`demangle_accepts`).
-/
import ScriptEngine.Proofs.Registry.Mangling

namespace ScriptEngine
namespace FunctionKey

open Decimal (isDigit ofDigits)

/-! ## Digits -/

/-- The digits of a number behind some zeros. -/
def paddedDigits (zeros n : Nat) : List Char := List.replicate zeros '0' ++ digitsOf n

theorem isDigit_of_mem_paddedDigits {zeros n : Nat} :
    ∀ c ∈ paddedDigits zeros n, isDigit c = true := by
  intro c hc
  rcases List.mem_append.mp hc with hc | hc
  · rw [List.eq_of_mem_replicate hc]
    rfl
  · exact isDigit_of_mem_digitsOf c hc

theorem ofDigits_digitsOf (n : Nat) : ofDigits (digitsOf n) = n := by
  show Nat.ofDigitChars 10 (digitsOf n) 0 = n
  rw [digitsOf, Nat.toString_eq_repr, Nat.toList_repr]
  exact Nat.ofDigitChars_toDigits (by decide) (by decide)

theorem ofDigits_paddedDigits (zeros n : Nat) : ofDigits (paddedDigits zeros n) = n := by
  induction zeros with
  | zero => exact ofDigits_digitsOf n
  | succ zeros ih => exact ih

theorem isDigit_iff {c : Char} : isDigit c = true ↔ 48 ≤ c.toNat ∧ c.toNat ≤ 57 :=
  decide_eq_true_iff

theorem digitsOf_ne_nil (n : Nat) : digitsOf n ≠ [] := by
  rw [digitsOf, Nat.toString_eq_repr, Nat.toList_repr]
  exact Nat.toDigits_ne_nil

/-- A digit is that of a number below ten. -/
theorem digitsOf_digit {c : Char} (hc : isDigit c = true) : digitsOf (c.toNat - 48) = [c] := by
  have hbounds := isDigit_iff.mp hc
  have hlt : c.toNat - 48 < 10 := by omega
  rw [digitsOf, Nat.toString_eq_repr, Nat.toList_repr, Nat.toDigits_of_lt_base hlt,
    List.singleton_inj, ← Char.toNat_inj, Nat.toNat_digitChar_of_lt_ten hlt]
  omega

/-- More digits behind those of a number are the digits of a greater number, unless the number is
zero. -/
theorem digitsOf_foldl {ds : List Char} (hds : ∀ c ∈ ds, isDigit c = true) {n : Nat} (hn : 0 < n) :
    digitsOf (ds.foldl (fun n c => 10 * n + (c.toNat - 48)) n) = digitsOf n ++ ds := by
  induction ds generalizing n with
  | nil => exact (List.append_nil _).symm
  | cons c ds ih =>
    have hc := hds c List.mem_cons_self
    have hbounds := isDigit_iff.mp hc
    have hlt : c.toNat - 48 < 10 := by omega
    have hnext : digitsOf (10 * n + (c.toNat - 48)) = digitsOf n ++ digitsOf (c.toNat - 48) := by
      simp only [digitsOf, Nat.toString_eq_repr, Nat.toList_repr]
      exact (Nat.toDigits_append_toDigits (by decide) hn hlt).symm
    rw [List.foldl_cons, ih (fun d hd => hds d (List.mem_cons_of_mem c hd)) (by omega), hnext,
      digitsOf_digit hc, List.append_assoc, List.singleton_append]

/-- A run of digits is the digits of the number that it names behind some zeros. -/
theorem digits_eq_padded {ds : List Char} (hds : ∀ c ∈ ds, isDigit c = true) (hne : ds ≠ []) :
    ∃ zeros, ds = paddedDigits zeros (ofDigits ds) := by
  induction ds with
  | nil => exact absurd rfl hne
  | cons c ds ih =>
    have hc := hds c List.mem_cons_self
    have hrest : ∀ d ∈ ds, isDigit d = true := fun d hd => hds d (List.mem_cons_of_mem c hd)
    by_cases hzero : c.toNat - 48 = 0
    · have hc0 : c = '0' := by
        have hdigit := digitsOf_digit hc
        rw [hzero] at hdigit
        exact (List.cons.inj hdigit).1.symm
      subst hc0
      by_cases hnil : ds = []
      · subst hnil
        exact ⟨0, rfl⟩
      · obtain ⟨zeros, hzeros⟩ := ih hrest hnil
        exact ⟨zeros + 1, congrArg ('0' :: ·) hzeros⟩
    · refine ⟨0, ?_⟩
      have hvalue : ofDigits (c :: ds) =
          ds.foldl (fun n c => 10 * n + (c.toNat - 48)) (c.toNat - 48) := by
        rw [ofDigits, List.foldl_cons, Nat.mul_zero, Nat.zero_add]
      show c :: ds = digitsOf (ofDigits (c :: ds))
      rw [hvalue, digitsOf_foldl hrest (Nat.pos_of_ne_zero hzero), digitsOf_digit hc]
      rfl

theorem readSize?_eq_some {ds : List Char} (hds : ∀ c ∈ ds, isDigit c = true) {n : Nat} :
    readSize? ds = some n ↔ n < sizeLimit ∧ ∃ zeros, ds = paddedDigits zeros n := by
  unfold readSize?
  constructor
  · intro h
    split at h
    · cases h
    · next hread =>
      obtain ⟨hne, hlt⟩ := not_or.mp hread
      obtain rfl := Option.some.inj h
      exact ⟨Nat.lt_of_not_le hlt, digits_eq_padded hds (by simpa using hne)⟩
  · rintro ⟨hlt, zeros, rfl⟩
    have hne : paddedDigits zeros n ≠ [] := by simp [paddedDigits, digitsOf_ne_nil]
    rw [ofDigits_paddedDigits, if_neg (by simpa [hne] using hlt)]

/-! ## Texts of a size -/

theorem byteCount_ofList (cs : List Char) : byteCount cs = (String.ofList cs).utf8ByteSize := by
  induction cs with
  | nil => rfl
  | cons c cs ih =>
    rw [String.ofList_cons, String.utf8ByteSize_append, byteCount, ih]
    simp

theorem byteCount_toList (s : String) : byteCount s.toList = s.utf8ByteSize := by
  rw [byteCount_ofList, String.ofList_toList]

theorem splitBytes?_append (front back : List Char) :
    splitBytes? (byteCount front) (front ++ back) = some (front, back) := by
  induction front with
  | nil => simp [byteCount, splitBytes?]
  | cons c front ih =>
    obtain ⟨rest, hrest⟩ := Nat.exists_eq_succ_of_ne_zero
      (Nat.ne_of_gt (Nat.add_pos_left c.utf8Size_pos (byteCount front)))
    have hle : c.utf8Size ≤ rest + 1 := by omega
    have hsub : rest + 1 - c.utf8Size = byteCount front := by omega
    rw [byteCount, hrest, List.cons_append, splitBytes?, if_pos hle, hsub, ih]
    rfl

/-- A text is split where a front of the given number of bytes ends, and nowhere else. -/
theorem splitBytes?_eq_some {n : Nat} {cs front back : List Char} :
    splitBytes? n cs = some (front, back) ↔ cs = front ++ back ∧ byteCount front = n := by
  constructor
  · intro h
    induction cs generalizing n front with
    | nil =>
      cases n with
      | zero =>
        cases h
        exact ⟨rfl, rfl⟩
      | succ n => cases h
    | cons c cs ih =>
      cases n with
      | zero =>
        cases h
        exact ⟨rfl, rfl⟩
      | succ n =>
        rw [splitBytes?] at h
        split at h
        · next hle =>
          obtain ⟨⟨first, last⟩, hsplit, heq⟩ := Option.map_eq_some_iff.mp h
          cases heq
          obtain ⟨rfl, hcount⟩ := ih hsplit
          refine ⟨rfl, ?_⟩
          rw [byteCount]
          omega
        · cases h
  · rintro ⟨rfl, rfl⟩
    exact splitBytes?_append front back

/-! ## Trailers -/

/-- The trailer of an arity with zeros before the number. -/
def paddedTrailer (zeros : Nat) : Arity → List Char
  | .fixed n => '_' :: paddedDigits zeros n
  | .variadic => []

/-- A number of arguments that a size can hold. -/
def ArityFits : Arity → Prop
  | .fixed n => n < sizeLimit
  | .variadic => True

theorem readTrailer_eq_ok {input : String} {cs : List Char} {a : Arity} :
    readTrailer input cs = .ok a ↔ ArityFits a ∧ ∃ zeros, cs = paddedTrailer zeros a := by
  constructor
  · intro h
    unfold readTrailer at h
    split at h
    · cases h
      exact ⟨trivial, 0, rfl⟩
    · cases h
    · next ds _ =>
      split at h
      · next n hread =>
        cases h
        split at hread
        · next hall =>
          obtain ⟨hlt, zeros, rfl⟩ := (readSize?_eq_some (List.all_eq_true.mp hall)).mp hread
          exact ⟨hlt, zeros, rfl⟩
        · cases hread
      · cases h
    · cases h
  · rintro ⟨hfits, zeros, rfl⟩
    cases a with
    | variadic => rfl
    | fixed n =>
      have hdigits : ∀ c ∈ paddedDigits zeros n, isDigit c = true := isDigit_of_mem_paddedDigits
      have hread := (readSize?_eq_some hdigits).mpr ⟨hfits, zeros, rfl⟩
      have hne : paddedDigits zeros n ≠ [] := by simp [paddedDigits, digitsOf_ne_nil]
      obtain ⟨d, ds, hcons⟩ := List.exists_cons_of_ne_nil hne
      show readTrailer input ('_' :: paddedDigits zeros n) = _
      rw [hcons, readTrailer, ← hcons, if_pos (List.all_eq_true.mpr hdigits), hread]
      simp

/-! ## Keys -/

/-- The name and the number of arguments are of sizes that a machine word can hold, as those of every
name in memory are. -/
structure Fits (k : FunctionKey) : Prop where
  name : k.name.utf8ByteSize < sizeLimit
  arity : ArityFits k.arity

/-- The mangled name of a key with zeros before the length and before the number of arguments. -/
def padded (zeros more : Nat) (k : FunctionKey) : String :=
  "_SR" ++ String.ofList (paddedDigits zeros k.name.utf8ByteSize) ++ k.name ++
    String.ofList (paddedTrailer more k.arity)

theorem padded_toList (zeros more : Nat) (k : FunctionKey) :
    (padded zeros more k).toList = '_' :: 'S' :: 'R' ::
      (paddedDigits zeros k.name.utf8ByteSize ++
        (k.name.toList ++ paddedTrailer more k.arity)) := by
  simp [padded]

/-- Where the length ends and what follows it. -/
theorem padded_split {k : FunctionKey} (h : ValidName k.name) (zeros more : Nat) :
    ((padded zeros more k).toList.drop 3).takeWhile isDigit =
        paddedDigits zeros k.name.utf8ByteSize ∧
      ((padded zeros more k).toList.drop 3).dropWhile isDigit =
        k.name.toList ++ paddedTrailer more k.arity := by
  rw [padded_toList]
  exact h.ends_digits isDigit_of_mem_paddedDigits _

/-- Without zeros it is the mangled name. -/
theorem mangle_eq_padded {k : FunctionKey} (h : ValidName k.name) :
    k.mangle = .ok (padded 0 0 k) := by
  have htrailer : trailer k.arity = paddedTrailer 0 k.arity := by cases k.arity <;> rfl
  rw [mangle_valid h, Except.ok.injEq, ← String.toList_inj, padded_toList, String.toList_ofList,
    encode, htrailer, byteCount_toList]
  rfl

/-- Zeros before one of the numbers give another text. -/
theorem padded_eq_padded {k : FunctionKey} (h : ValidName k.name) {zeros more : Nat} :
    padded 0 0 k = padded zeros more k ↔ zeros = 0 ∧ (more = 0 ∨ k.arity = .variadic) := by
  have length : ∀ zeros n, (paddedDigits zeros n).length = zeros + (digitsOf n).length := by
    simp [paddedDigits]
  constructor
  · intro heq
    obtain ⟨hdigits, hbody⟩ := padded_split h zeros more
    rw [← heq, (padded_split h 0 0).1] at hdigits
    rw [← heq, (padded_split h 0 0).2] at hbody
    have hzeros := congrArg List.length hdigits
    rw [length, length] at hzeros
    refine ⟨by omega, ?_⟩
    cases harity : k.arity with
    | variadic => exact .inr rfl
    | fixed n =>
      rw [harity] at hbody
      have hmore := congrArg List.length (List.cons.inj (List.append_cancel_left hbody)).2
      rw [length, length] at hmore
      exact .inl (by omega)
  · rintro ⟨rfl, rfl | harity⟩
    · rfl
    · rw [padded, padded, harity]
      rfl

/-- A key is read from every such text. -/
theorem demangle_padded {k : FunctionKey} (hvalid : ValidName k.name) (hfits : k.Fits)
    (zeros more : Nat) : demangle (padded zeros more k) = .ok k := by
  have hdigits : ∀ c ∈ paddedDigits zeros k.name.utf8ByteSize, isDigit c = true :=
    isDigit_of_mem_paddedDigits
  obtain ⟨hrun, hbody⟩ := hvalid.ends_digits hdigits (paddedTrailer more k.arity)
  have hsize := (readSize?_eq_some hdigits).mpr ⟨hfits.name, zeros, rfl⟩
  have hsplit := splitBytes?_append k.name.toList (paddedTrailer more k.arity)
  rw [byteCount_toList] at hsplit
  have htrailer : readTrailer (padded zeros more k) (paddedTrailer more k.arity) = .ok k.arity :=
    readTrailer_eq_ok.mpr ⟨hfits.arity, more, rfl⟩
  have hpos : k.name.utf8ByteSize ≠ 0 := by
    obtain ⟨c, cs, hname, -⟩ := hvalid
    have := c.utf8Size_pos
    rw [← byteCount_toList, hname, byteCount]
    omega
  obtain ⟨count, hcount⟩ := Nat.exists_eq_succ_of_ne_zero hpos
  rw [hcount] at hrun hbody hsize hsplit
  unfold demangle
  rw [padded_toList, hcount]
  simp only [hrun, hbody, hsize, hsplit, htrailer]
  rw [Except.map, String.ofList_toList]

/-- There is no other text that a key is read from. -/
theorem padded_of_demangle {input : String} {k : FunctionKey} (h : demangle input = .ok k) :
    ValidName k.name ∧ k.Fits ∧ ∃ zeros more, input = padded zeros more k := by
  unfold demangle at h
  split at h
  · next rest hinput =>
    split at h
    · cases h
    · cases h
    · next length hlength hread =>
      obtain ⟨hsize, zeros, hzeros⟩ := (readSize?_eq_some mem_takeWhile).mp hread
      dsimp only at h
      split at h
      · cases h
      · next name back hsplit =>
        obtain ⟨hbody, hcount⟩ := splitBytes?_eq_some.mp hsplit
        have hcount' := (byteCount_ofList name).symm.trans hcount
        cases htrailer : readTrailer input back with
        | error e =>
          rw [htrailer] at h
          cases h
        | ok a =>
          rw [htrailer] at h
          cases h
          obtain ⟨harity, more, rfl⟩ := readTrailer_eq_ok.mp htrailer
          refine ⟨?_, ⟨hcount' ▸ hsize, harity⟩, zeros, more, ?_⟩
          · cases name with
            | nil => exact absurd (hcount ▸ rfl) hlength
            | cons c name =>
              refine ⟨c, name, String.toList_ofList, head_dropWhile rest c ?_⟩
              rw [hbody]
              rfl
          · rw [← String.toList_inj, padded_toList, hinput, String.toList_ofList, hcount', ← hzeros,
              ← hbody, List.takeWhile_append_dropWhile]
  · cases h

theorem mangle_eq_error {k : FunctionKey} {e : MangleError} :
    k.mangle = .error e ↔ k.name = "" ∧ e = .emptyName ∨
      (∃ c cs, k.name.toList = c :: cs ∧ isDigit c = true) ∧ e = .leadingDigit k.name := by
  unfold mangle
  cases hname : k.name.toList with
  | nil =>
    have hempty : k.name = "" := String.toList_eq_nil_iff.mp hname
    simp [hempty, @eq_comm _ e]
  | cons c cs =>
    have hne : k.name ≠ "" := by
      rintro hempty
      simp [hempty] at hname
    by_cases hc : isDigit c = true <;> simp [hc, hne, @eq_comm _ e]

/-! ## Both directions -/

/-- How a key is mangled, and what its mangled name is read as. -/
structure Reversible (k : FunctionKey) : Prop where
  /-- An empty name is refused, and a name that begins with a digit, and nothing else. -/
  refused : ∀ e, k.mangle = .error e ↔ k.name = "" ∧ e = .emptyName ∨
    (∃ c cs, k.name.toList = c :: cs ∧ isDigit c = true) ∧ e = .leadingDigit k.name
  inverts : ValidName k.name → k.Fits → ∃ mangled, k.mangle = .ok mangled ∧ demangle mangled = .ok k
  /-- No other key has its mangled name. -/
  alone : ∀ j mangled, k.mangle = .ok mangled → j.mangle = .ok mangled → j = k

/-- A key is read back from its mangled name, whatever its name holds. -/
theorem mangle_reversible (k : FunctionKey) : k.Reversible where
  refused _ := mangle_eq_error
  inverts hvalid hfits := ⟨_, mangle_eq_padded hvalid, demangle_padded hvalid hfits 0 0⟩
  alone _ _ hk hj := mangle_injective hj hk

/-- A name may look like a mangled name itself, and hold letters of more than one byte. -/
example : FunctionKey.mangle ⟨"_SR1é_2", .fixed 12⟩ = .ok "_SR8_SR1é_2_12" ∧
    demangle "_SR8_SR1é_2_12" = .ok ⟨"_SR1é_2", .fixed 12⟩ := ⟨rfl, rfl⟩

/-- A text is read as a key exactly if it is the mangled name of the key, with any zeros before its
two numbers; and it is what mangling produces exactly if there are none. -/
theorem demangle_accepts (input : String) (k : FunctionKey) :
    (demangle input = .ok k ↔
      ValidName k.name ∧ k.Fits ∧ ∃ zeros more, input = padded zeros more k) ∧
    (demangle input = .ok k → ∃ zeros more, input = padded zeros more k ∧
      (k.mangle = .ok input ↔ zeros = 0 ∧ (more = 0 ∨ k.arity = .variadic))) := by
  refine ⟨⟨padded_of_demangle, ?_⟩, fun h => ?_⟩
  · rintro ⟨hvalid, hfits, zeros, more, rfl⟩
    exact demangle_padded hvalid hfits zeros more
  · obtain ⟨hvalid, -, zeros, more, rfl⟩ := padded_of_demangle h
    refine ⟨zeros, more, rfl, ?_⟩
    rw [mangle_eq_padded hvalid, Except.ok.injEq]
    exact padded_eq_padded hvalid

/-- A key is read from texts that are not its mangled name. -/
theorem padded_names_accepted :
    demangle "_SR01a" = .ok ⟨"a", .variadic⟩ ∧
      FunctionKey.mangle ⟨"a", .variadic⟩ = .ok "_SR1a" ∧ "_SR1a" ≠ "_SR01a" ∧
      demangle "_SR1a_01" = .ok ⟨"a", .fixed 1⟩ ∧
      FunctionKey.mangle ⟨"a", .fixed 1⟩ = .ok "_SR1a_1" ∧ "_SR1a_1" ≠ "_SR1a_01" := by
  refine ⟨rfl, rfl, ?_, rfl, rfl, ?_⟩ <;> decide

end FunctionKey
end ScriptEngine
