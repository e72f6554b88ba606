/-
The integers that natives receive.

The value of a finite double is an exact rational (`Decimal.value?`), read off what the double
unpacks to.  The conversion to an integer type reads the bits of the double instead, and finds
a whole number exactly where the value is one (`wholeNumber?_eq_some`).

So a number is taken for a parameter exactly if its value is an integer of the type, and then
as that integer, with one exception.  The conversion compares with the greatest integer of the
type as a double, and that of a type of 64 bits is rounded up (`limit_rounded`): the power of
two behind it passes, and is taken as the greatest integer (`powers_saturate`).
-/
import ScriptEngine.Native.Function
import ScriptEngine.Proofs.Decimal.Equality

namespace ScriptEngine
namespace Decimal

open Float.Model Float.Model.UnpackedFloat

/-! ## The value of a double -/

/-- The value of an unpacked number, if it is finite. -/
def rational? : UnpackedFloat → Option Rat
  | .zero _ => some (mkRat 0 1)
  | .finite s m e _ =>
    some (mkRat (s.apply (m * Nat.pow 2 e.toNat : Nat)) (Nat.pow 2 (-e).toNat))
  | .infinity _ | .notANumber => none

/-- The value of a double, if it is finite. -/
def value? (x : Float) : Option Rat := rational? x.toModel.unpack

/-! ## The parts of a double, read from its bits -/

def biasedExponent (bits : Nat) : Nat := bits / Nat.pow 2 52 % Nat.pow 2 11

/-- The mantissa with the bit that a normal number leaves out. -/
def mantissa (bits : Nat) : Nat :=
  if biasedExponent bits = 0 then bits % Nat.pow 2 52 else Nat.pow 2 52 + bits % Nat.pow 2 52

/-- The exponent of the last place, counted from 1075 below zero. -/
def scale (bits : Nat) : Nat := if biasedExponent bits = 0 then 1 else biasedExponent bits

/-- The number with the sign of the double. -/
def signed (bits n : Nat) : Int := if bits < Nat.pow 2 63 then n else -n

theorem wholeNumber?_eq (x : Float) :
    wholeNumber? x =
      if biasedExponent x.toBits.toNat = 2047 then none
      else if 1075 ≤ scale x.toBits.toNat then
        some (signed x.toBits.toNat
          (mantissa x.toBits.toNat * Nat.pow 2 (scale x.toBits.toNat - 1075)))
      else if mantissa x.toBits.toNat % Nat.pow 2 (1075 - scale x.toBits.toNat) = 0 then
        some (signed x.toBits.toNat
          (mantissa x.toBits.toNat / Nat.pow 2 (1075 - scale x.toBits.toNat)))
      else none := rfl

section
variable (b : BitVec Format.binary64.numBits)

theorem toNat_unpackMantissa : (unpackMantissa b).toNat = b.toNat % Nat.pow 2 52 := by
  show (BitVec.cast _ (BitVec.extractLsb 51 0 b)).toNat = _
  rw [BitVec.toNat_cast, BitVec.extractLsb_toNat, Nat.shiftRight_zero]

theorem toNat_unpackExponent : (unpackExponent b).toNat = biasedExponent b.toNat := by
  show (BitVec.cast _ (BitVec.extractLsb 62 52 b)).toNat = _
  rw [BitVec.toNat_cast, BitVec.extractLsb_toNat, Nat.shiftRight_eq_div_pow]
  rfl

theorem apply_unpackSign (n : Nat) :
    (Sign.ofBitVec (unpackSign b)).apply n = signed b.toNat n := by
  have hlt : b.toNat < 2 ^ 64 := b.isLt
  have hsign : (unpackSign b).toNat = b.toNat / 2 ^ 63 % 2 := by
    show (BitVec.cast _ (BitVec.extractLsb 63 63 b)).toNat = _
    rw [BitVec.toNat_cast, BitVec.extractLsb_toNat, Nat.shiftRight_eq_div_pow]
  unfold signed Sign.ofBitVec
  have hiff : unpackSign b = 0#1 ↔ b.toNat < Nat.pow 2 63 := by
    rw [← BitVec.toNat_inj, hsign]
    show b.toNat / 2 ^ 63 % 2 = 0 ↔ b.toNat < 2 ^ 63
    omega
  by_cases h : b.toNat < Nat.pow 2 63
  · rw [if_pos (hiff.mpr h), if_pos h]
    rfl
  · rw [if_neg (mt hiff.mp h), if_neg h]
    rfl

end

theorem rational?_finite {s : Sign} {m : Nat} {e : Int} {hm : 0 < m} {bits : Nat}
    (hs : ∀ n : Nat, s.apply n = signed bits n) (hmantissa : m = mantissa bits)
    (he : e = scale bits - 1075) :
    rational? (.finite s m e hm) =
      some (mkRat (signed bits (mantissa bits * Nat.pow 2 (scale bits - 1075)))
        (Nat.pow 2 (1075 - scale bits))) := by
  have hup : e.toNat = scale bits - 1075 := by omega
  have hdown : (-e).toNat = 1075 - scale bits := by omega
  show some (mkRat (s.apply (m * Nat.pow 2 e.toNat : Nat)) (Nat.pow 2 (-e).toNat)) = _
  rw [hs, hup, hdown, hmantissa]

theorem rational?_unpack (b : BitVec Format.binary64.numBits) :
    rational? (UnpackedFloat.unpack .binary64 b) =
      if biasedExponent b.toNat = 2047 then none
      else some (mkRat (signed b.toNat (mantissa b.toNat * Nat.pow 2 (scale b.toNat - 1075)))
        (Nat.pow 2 (1075 - scale b.toNat))) := by
  have hfull : unpackExponent b = -1#11 ↔ biasedExponent b.toNat = 2047 := by
    rw [← BitVec.toNat_inj, toNat_unpackExponent]
    rfl
  have hnone : unpackExponent b = 0#11 ↔ biasedExponent b.toNat = 0 := by
    rw [← BitVec.toNat_inj, toNat_unpackExponent]
    rfl
  have hfraction : unpackMantissa b = 0#52 ↔ b.toNat % Nat.pow 2 52 = 0 := by
    rw [← BitVec.toNat_inj, toNat_unpackMantissa]
    rfl
  unfold UnpackedFloat.unpack
  dsimp only
  by_cases hf : biasedExponent b.toNat = 2047
  · rw [if_pos (hfull.mpr hf), if_pos hf]
    split <;> rfl
  · rw [if_neg (mt hfull.mp hf), if_neg hf]
    by_cases hz : biasedExponent b.toNat = 0
    · rw [if_pos (hnone.mpr hz)]
      have hm : mantissa b.toNat = b.toNat % Nat.pow 2 52 := if_pos hz
      have hscale : scale b.toNat = 1 := if_pos hz
      by_cases hfr : b.toNat % Nat.pow 2 52 = 0
      · rw [dif_pos (hfraction.mpr hfr), hm, hfr, Nat.zero_mul]
        have hsigned : signed b.toNat 0 = 0 := by
          unfold signed
          split <;> rfl
        rw [hsigned, Rat.zero_mkRat]
        exact congrArg some (Rat.zero_mkRat 1)
      · rw [dif_neg (mt hfraction.mp hfr)]
        refine rational?_finite (apply_unpackSign b) ?_ ?_
        · rw [hm, toNat_unpackMantissa]
        · rw [hscale, hnone.mpr hz]
          rfl
    · rw [if_neg (mt hnone.mp hz)]
      refine rational?_finite (apply_unpackSign b) ?_ ?_
      · rw [toNat_implicit, toNat_unpackMantissa, mantissa, if_neg hz]
        rfl
      · rw [toNat_unpackExponent, scale, if_neg hz]
        rfl

theorem value?_eq (x : Float) :
    value? x =
      if biasedExponent x.toBits.toNat = 2047 then none
      else some (mkRat
        (signed x.toBits.toNat (mantissa x.toBits.toNat * Nat.pow 2 (scale x.toBits.toNat - 1075)))
        (Nat.pow 2 (1075 - scale x.toBits.toNat))) :=
  rational?_unpack x.toModel.toBits.toBitVec

/-! ## Whole numbers -/

theorem natCast_eq_mul {m d : Nat} {k : Int} (hd : 0 < d) :
    (m : Int) = k * d ↔ m % d = 0 ∧ ((m / d : Nat) : Int) = k := by
  have hne : (d : Int) ≠ 0 := by omega
  constructor
  · intro h
    constructor
    · rw [← Int.natCast_inj, Int.natCast_emod, h, Int.mul_emod_left]
      rfl
    · rw [Int.natCast_ediv, h, Int.mul_ediv_cancel _ hne]
  · rintro ⟨hmod, rfl⟩
    rw [← Int.natCast_mul, Nat.div_mul_cancel (Nat.dvd_of_mod_eq_zero hmod)]

theorem signed_eq_mul {bits m d : Nat} {n : Int} (hd : 0 < d) :
    signed bits m = n * d ↔ m % d = 0 ∧ signed bits (m / d) = n := by
  unfold signed
  split
  · exact natCast_eq_mul hd
  · have hneg : -(m : Int) = n * d ↔ (m : Int) = -n * d := by
      rw [Int.neg_mul]
      omega
    rw [hneg, natCast_eq_mul hd]
    exact and_congr_right fun _ => by omega

/-- The bits name a whole number exactly if the value of the double is that number. -/
theorem wholeNumber?_eq_some {x : Float} {n : Int} :
    wholeNumber? x = some n ↔ value? x = some (n : Rat) := by
  rw [wholeNumber?_eq, value?_eq]
  generalize x.toBits.toNat = bits
  by_cases hf : biasedExponent bits = 2047
  · rw [if_pos hf, if_pos hf]
    exact iff_of_false (Option.some_ne_none n).symm (Option.some_ne_none (n : Rat)).symm
  · have hden : 0 < Nat.pow 2 (1075 - scale bits) := Nat.two_pow_pos _
    rw [if_neg hf, if_neg hf, Option.some_inj, ← Rat.mkRat_one,
      Rat.mkRat_eq_iff (Nat.ne_of_gt hden) Nat.one_ne_zero, Int.natCast_one, Int.mul_one]
    by_cases hscale : 1075 ≤ scale bits
    · have hone : Nat.pow 2 (1075 - scale bits) = 1 := by rw [Nat.sub_eq_zero_of_le hscale]
      rw [if_pos hscale, hone, Int.natCast_one, Int.mul_one, Option.some_inj]
    · have hshift : Nat.pow 2 (scale bits - 1075) = 1 := by
        rw [Nat.sub_eq_zero_of_le (Nat.le_of_not_le hscale)]
      rw [if_neg hscale, hshift, Nat.mul_one, signed_eq_mul hden]
      split
      · next hmod =>
        rw [Option.some_inj]
        exact (and_iff_right hmod).symm
      · next hmod => exact iff_of_false (Option.some_ne_none n).symm fun h => hmod h.1

end Decimal

/-! ## What a parameter takes -/

namespace IntegerType

/-- The integer types of parameters: the signed ones of 8, 16, 32 and 64 bits, and the unsigned ones
of these widths, the last of which is also the type of sizes. -/
def parameters : List IntegerType :=
  [⟨true, 8⟩, ⟨true, 16⟩, ⟨true, 32⟩, ⟨true, 64⟩, ⟨false, 8⟩, ⟨false, 16⟩, ⟨false, 32⟩, ⟨false, 64⟩]

/-- The double is an integer of the type. -/
structure Holds (t : IntegerType) (x : Float) (n : Int) : Prop where
  value : Decimal.value? x = some (n : Rat)
  least : t.least ≤ n
  greatest : n ≤ t.greatest

/-- The double is the power of two behind the integers of a type of 64 bits. -/
structure Spills (t : IntegerType) (x : Float) : Prop where
  bits : t.bits = 64
  value : Decimal.value? x = some ((t.greatest + 1 : Int) : Rat)

theorem limit_rounded {t : IntegerType} (h : t ∈ parameters) :
    Decimal.value? (Float.ofInt t.greatest) = some (t.limit : Rat) := by
  revert t
  decide +kernel

theorem limit_eq {t : IntegerType} (h : t ∈ parameters) :
    t.limit = if t.bits = 64 then t.greatest + 1 else t.greatest := by
  revert t
  decide

theorem least_le_greatest {t : IntegerType} (h : t ∈ parameters) : t.least ≤ t.greatest := by
  revert t
  decide

theorem ofFloat?_eq_some {t : IntegerType} {x : Float} {n : Int} :
    t.ofFloat? x = some n ↔
      ∃ v : Int, Decimal.value? x = some (v : Rat) ∧ t.least ≤ v ∧ v ≤ t.limit ∧
        min v t.greatest = n := by
  simp only [← Decimal.wholeNumber?_eq_some]
  unfold ofFloat?
  cases wholeNumber? x with
  | none => simp
  | some v => simp [and_assoc]

theorem ofFloat?_iff {t : IntegerType} (h : t ∈ parameters) {x : Float} {n : Int} :
    t.ofFloat? x = some n ↔ t.Holds x n ∨ t.Spills x ∧ n = t.greatest := by
  have hlimit := limit_eq h
  have hleast := least_le_greatest h
  rw [ofFloat?_eq_some]
  constructor
  · rintro ⟨v, hvalue, hlow, hhigh, rfl⟩
    by_cases hv : v ≤ t.greatest
    · rw [Int.min_eq_left hv]
      exact .inl ⟨hvalue, hlow, hv⟩
    · -- only the bound itself lies beyond the greatest integer
      rw [Int.min_eq_right (by omega)]
      by_cases hbits : t.bits = 64
      · rw [if_pos hbits] at hlimit
        obtain rfl : v = t.greatest + 1 := by omega
        exact .inr ⟨⟨hbits, hvalue⟩, rfl⟩
      · rw [if_neg hbits] at hlimit
        omega
  · rintro (⟨hvalue, hlow, hhigh⟩ | ⟨⟨hbits, hvalue⟩, rfl⟩)
    · refine ⟨n, hvalue, hlow, ?_, Int.min_eq_left hhigh⟩
      split at hlimit <;> omega
    · rw [if_pos hbits] at hlimit
      exact ⟨t.greatest + 1, hvalue, by omega, by omega, Int.min_eq_right (by omega)⟩

/-- How arguments are taken for a parameter of the type. -/
structure Takes (t : IntegerType) : Prop where
  /-- The bound is the greatest integer of the type as a double. -/
  bound : Decimal.value? (Float.ofInt t.greatest) = some (t.limit : Rat)
  /-- A number is taken exactly if it is an integer of the type, and as that integer; the power of
  two that spills is taken as well. -/
  taken : ∀ x n, (NativeType.integer t).read (.number x) = .ok n ↔
    t.Holds x n ∨ t.Spills x ∧ n = t.greatest
  /-- Every other number is refused, and the error names it. -/
  refused : ∀ x e, (NativeType.integer t).read (.number x) = .error e ↔
    e = .notAnInteger x ∧ (¬∃ n, t.Holds x n) ∧ ¬t.Spills x
  /-- What a native receives is a number of the call. -/
  received : ∀ args i n, argument (.integer t) args i = .ok n →
    ∃ x, args[i]? = some (.number x) ∧ (t.Holds x n ∨ t.Spills x ∧ n = t.greatest)

end IntegerType

namespace NativeType

theorem read_integer_ok {t : IntegerType} {v : Value} {n : Int} :
    (integer t).read v = .ok n ↔ ∃ x, v = .number x ∧ t.ofFloat? x = some n := by
  cases v with
  | number x => cases h : t.ofFloat? x <;> simp [read, h]
  | unset | bool _ | string _ | object _ => simp [read]

theorem read_integer_error {t : IntegerType} {x : Float} {e : ConversionError} :
    (integer t).read (.number x) = .error e ↔ e = .notAnInteger x ∧ t.ofFloat? x = none := by
  cases h : t.ofFloat? x <;> simp [read, h, eq_comm]

end NativeType

theorem argument_eq_ok {t : NativeType} {args : List Value} {i : Nat} {a : t.Carrier} :
    argument t args i = .ok a ↔ ∃ v, args[i]? = some v ∧ t.read v = .ok a := by
  unfold argument
  cases args[i]? with
  | none => simp
  | some v => cases h : t.read v <;> simp [h]

namespace IntegerType

/-- A number is taken as the integer that it is, if it is one of the type, and refused if not; but
for a type of 64 bits the power of two behind its integers is taken as the greatest of them. -/
theorem integers_taken {t : IntegerType} (h : t ∈ parameters) : t.Takes where
  bound := limit_rounded h
  taken x n := by
    rw [NativeType.read_integer_ok, ← ofFloat?_iff h]
    simp
  refused x e := by
    rw [NativeType.read_integer_error, Option.eq_none_iff_forall_ne_some]
    simp only [ne_eq, ofFloat?_iff h]
    refine and_congr_right fun _ => ⟨fun hnone => ⟨?_, ?_⟩, ?_⟩
    · rintro ⟨n, hn⟩
      exact hnone n (.inl hn)
    · exact fun hspills => hnone t.greatest (.inr ⟨hspills, rfl⟩)
    · rintro ⟨hholds, hspills⟩ n (hn | hn)
      · exact hholds ⟨n, hn⟩
      · exact hspills hn.1
  received args i n hargument := by
    obtain ⟨v, hv, hread⟩ := argument_eq_ok.mp hargument
    obtain ⟨x, rfl, hx⟩ := NativeType.read_integer_ok.mp hread
    exact ⟨x, hv, (ofFloat?_iff h).mp hx⟩

theorem integers_taken_long : ⟨true, 64⟩ ∈ parameters ∧ Takes ⟨true, 64⟩ :=
  ⟨by decide, integers_taken (by decide)⟩

/-- The powers of two behind the integers of 64 bits are taken as the greatest integers. -/
theorem powers_saturate :
    let long : Float := .ofBits 0x43E0000000000000
    let size : Float := .ofBits 0x43F0000000000000
    Decimal.value? long = some ((9223372036854775808 : Int) : Rat) ∧
      (NativeType.integer ⟨true, 64⟩).read (.number long) = .ok 9223372036854775807 ∧
      Decimal.value? size = some ((18446744073709551616 : Int) : Rat) ∧
      (NativeType.integer ⟨false, 64⟩).read (.number size) = .ok 18446744073709551615 := by
  refine ⟨?_, rfl, ?_, rfl⟩ <;> decide +kernel

end IntegerType
end ScriptEngine
