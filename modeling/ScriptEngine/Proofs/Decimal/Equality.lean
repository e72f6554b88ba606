/-
When two doubles are equal as numbers.

A double is its sign, its exponent and its mantissa, and what it unpacks to tells
all three, unless it is no number.  Equal numbers unpack alike, except that the
two zeros are equal with unlike signs; so two doubles are equal as numbers only
if they are the same double or the two zeros (`eq_or_opposite_of_beq`).  What is
no number equals nothing, but there is one such double only (`eq_of_isNaN`).
-/

namespace ScriptEngine
namespace Decimal

open Float.Model Float.Model.UnpackedFloat

/-! ## The parts of a double -/

theorem getLsbD_unpackSign {spec : Format} (b : BitVec spec.numBits) :
    (unpackSign b).getLsbD 0 = b.getLsbD (spec.mantissaBitsWithoutImplicit + spec.exponentBits) := by
  show (BitVec.cast _ (BitVec.extractLsb _ _ b)).getLsbD 0 = _
  simp

/-- A double is its sign, its exponent and its mantissa. -/
theorem eq_of_parts {a b : BitVec Format.binary64.numBits} (hs : unpackSign a = unpackSign b)
    (he : unpackExponent a = unpackExponent b) (hm : unpackMantissa a = unpackMantissa b) :
    a = b := by
  refine BitVec.eq_of_getLsbD_eq fun i hi => ?_
  have hi : i < 64 := hi
  rcases Nat.lt_or_ge i 52 with hlow | hlow
  · have := congrArg (fun v => v.getLsbD i) hm
    simpa [unpackMantissa, hlow] using this
  · rcases Nat.lt_or_ge i 63 with hmid | hmid
    · have := congrArg (fun v => v.getLsbD (i - 52)) he
      have hle : i ≤ 62 := by omega
      have hback : 52 + (i - 52) = i := by omega
      simpa [unpackExponent, hle, hback] using this
    · have := congrArg (fun v => v.getLsbD 0) hs
      have htop : i = 63 := by omega
      subst htop
      rwa [getLsbD_unpackSign, getLsbD_unpackSign] at this

theorem eq_of_bits {x y : Float} (h : x.toModel.toBits.toBitVec = y.toModel.toBits.toBitVec) :
    x = y := by
  obtain ⟨⟨⟨a⟩, ha⟩⟩ := x
  obtain ⟨⟨⟨b⟩, hb⟩⟩ := y
  cases h
  rfl

theorem toNat_implicit (m : BitVec 52) : (1#1 ++ m).toNat = 1 <<< 52 + m.toNat := by
  rw [BitVec.toNat_append, ← Nat.shiftLeft_add_eq_or_of_lt m.isLt]
  rfl

/-- What a double unpacks to. -/
theorem unpack_cases (b : BitVec Format.binary64.numBits) :
    (unpackExponent b = -1#11 ∧ unpackMantissa b = 0#52 ∧
      UnpackedFloat.unpack .binary64 b = .infinity (.ofBitVec (unpackSign b))) ∨
    (unpackExponent b = -1#11 ∧ unpackMantissa b ≠ 0#52 ∧
      UnpackedFloat.unpack .binary64 b = .notANumber) ∨
    (unpackExponent b = 0#11 ∧ unpackMantissa b = 0#52 ∧
      UnpackedFloat.unpack .binary64 b = .zero (.ofBitVec (unpackSign b))) ∨
    (unpackExponent b = 0#11 ∧ ∃ hm, UnpackedFloat.unpack .binary64 b =
      .finite (.ofBitVec (unpackSign b)) (unpackMantissa b).toNat (-1074) hm) ∨
    ∃ hm, UnpackedFloat.unpack .binary64 b =
      .finite (.ofBitVec (unpackSign b)) (1#1 ++ unpackMantissa b).toNat
        ((unpackExponent b).toNat - 1075) hm := by
  unfold UnpackedFloat.unpack
  dsimp only
  by_cases he : unpackExponent b = -1#11
  · by_cases hm : unpackMantissa b = 0#52
    · exact .inl ⟨he, hm, by rw [if_pos he, if_pos hm]⟩
    · exact .inr (.inl ⟨he, hm, by rw [if_pos he, if_neg hm]⟩)
  · by_cases hz : unpackExponent b = 0#11
    · by_cases hm : unpackMantissa b = 0#52
      · exact .inr (.inr (.inl ⟨hz, hm, by rw [if_neg he, if_pos hz, dif_pos hm]⟩))
      · have hpos : 0 < (unpackMantissa b).toNat :=
          Nat.pos_of_ne_zero fun h0 => hm (BitVec.eq_of_toNat_eq h0)
        refine .inr (.inr (.inr (.inl ⟨hz, hpos, ?_⟩)))
        rw [if_neg he, if_pos hz, dif_neg hm, hz]
        rfl
    · have hpos : 0 < (1#1 ++ unpackMantissa b).toNat :=
        Nat.lt_of_lt_of_eq (by omega) (toNat_implicit (unpackMantissa b)).symm
      refine .inr (.inr (.inr (.inr ⟨hpos, ?_⟩)))
      rw [if_neg he, if_neg hz]
      rfl

theorem toBitVec_ofBitVec (s : BitVec 1) : (Sign.ofBitVec s).toBitVec = s := by
  revert s
  decide

theorem ofBitVec_injective {s t : BitVec 1} (h : Sign.ofBitVec s = Sign.ofBitVec t) : s = t := by
  rw [← toBitVec_ofBitVec s, h, toBitVec_ofBitVec]

/-- What unpacks to the same number is the same. -/
theorem unpack_injective {a b : BitVec Format.binary64.numBits}
    (h : UnpackedFloat.unpack .binary64 a = UnpackedFloat.unpack .binary64 b)
    (hn : UnpackedFloat.unpack .binary64 a ≠ .notANumber) : a = b := by
  have hma : (unpackMantissa a).toNat < 2 ^ 52 := (unpackMantissa a).isLt
  have hmb : (unpackMantissa b).toNat < 2 ^ 52 := (unpackMantissa b).isLt
  rcases unpack_cases a with ⟨ea, ma, ua⟩ | ⟨ea, ma, ua⟩ | ⟨ea, ma, ua⟩ | ⟨ea, pa, ua⟩ | ⟨pa, ua⟩ <;>
  rcases unpack_cases b with ⟨eb, mb, ub⟩ | ⟨eb, mb, ub⟩ | ⟨eb, mb, ub⟩ | ⟨eb, pb, ub⟩ | ⟨pb, ub⟩ <;>
  rw [ua, ub] at h <;> first | (cases h; done) | skip
  · exact eq_of_parts (ofBitVec_injective (infinity.inj h)) (ea.trans eb.symm) (ma.trans mb.symm)
  · exact absurd ua hn
  · exact eq_of_parts (ofBitVec_injective (zero.inj h)) (ea.trans eb.symm) (ma.trans mb.symm)
  · obtain ⟨hs, hm, -⟩ := finite.inj h
    exact eq_of_parts (ofBitVec_injective hs) (ea.trans eb.symm) (BitVec.eq_of_toNat_eq hm)
  · obtain ⟨-, hm, -⟩ := finite.inj h
    rw [toNat_implicit] at hm
    omega
  · obtain ⟨-, hm, -⟩ := finite.inj h
    rw [toNat_implicit] at hm
    omega
  · obtain ⟨hs, hm, he⟩ := finite.inj h
    rw [toNat_implicit, toNat_implicit] at hm
    refine eq_of_parts (ofBitVec_injective hs) (BitVec.eq_of_toNat_eq ?_)
      (BitVec.eq_of_toNat_eq ?_)
    · omega
    · omega

/-! ## Comparison -/

theorem eq_of_compare {u v : UnpackedFloat} (h : u.compare v = some .eq) :
    u ≠ .notANumber ∧ u = v ∨ ∃ s t, u = .zero s ∧ v = .zero t := by
  have hnumber : u ≠ .notANumber := by
    rintro rfl
    cases h
  cases u with
  | notANumber => cases h
  | infinity s =>
    cases v with
    | infinity t => cases s <;> cases t <;> cases h <;> exact .inl ⟨hnumber, rfl⟩
    | _ => cases s <;> cases h
  | zero s =>
    cases v with
    | zero t => exact .inr ⟨s, t, rfl, rfl⟩
    | infinity t => cases t <;> cases h
    | notANumber => cases h
    | finite t m e hm => cases t <;> cases h
  | finite s m e hm =>
    cases v with
    | zero t => cases s <;> cases h
    | infinity t => cases t <;> cases h
    | notANumber => cases h
    | finite t m' e' hm' =>
      have hsign : s = t := by cases s <;> cases t <;> first | rfl | cases h
      subst hsign
      have hparts : e = e' ∧ m = m' := by
        cases s <;>
        · dsimp only [UnpackedFloat.compare] at h
          simpa [Ordering.then_eq_eq] using h
      obtain ⟨rfl, rfl⟩ := hparts
      exact .inl ⟨hnumber, rfl⟩

/-- The zero without a sign. -/
def positiveZero : Float := .ofBits 0

def negativeZero : Float := .ofBits 0x8000000000000000

theorem unpack_negativeZero : negativeZero.toModel.unpack = .zero .negative := rfl
theorem unpack_positiveZero : positiveZero.toModel.unpack = .zero .positive := rfl

theorem eq_of_unpack {x y : Float} (h : x.toModel.unpack = y.toModel.unpack)
    (hn : x.toModel.unpack ≠ .notANumber) : x = y :=
  eq_of_bits (unpack_injective h hn)

theorem eq_zero_of_unpack {x : Float} {s : Sign} (h : x.toModel.unpack = .zero s) :
    x = positiveZero ∨ x = negativeZero := by
  have hn : x.toModel.unpack ≠ .notANumber := by
    intro hnan
    cases h.symm.trans hnan
  cases s with
  | negative => exact .inr (eq_of_unpack (h.trans unpack_negativeZero.symm) hn)
  | positive => exact .inl (eq_of_unpack (h.trans unpack_positiveZero.symm) hn)

/-- The two zeros, which are equal as numbers. -/
def OppositeZeros (x y : Float) : Prop :=
  x = positiveZero ∧ y = negativeZero ∨ x = negativeZero ∧ y = positiveZero

theorem eq_or_opposite_of_beq {x y : Float} (h : (x == y) = true) : x = y ∨ OppositeZeros x y := by
  have hbeq : (x.toModel.unpack.compare y.toModel.unpack == some .eq) = true := h
  rcases eq_of_compare (beq_iff_eq.mp hbeq) with ⟨hn, heq⟩ | ⟨s, t, hx, hy⟩
  · exact .inl (eq_of_unpack heq hn)
  · rcases eq_zero_of_unpack hx with rfl | rfl <;> rcases eq_zero_of_unpack hy with rfl | rfl
    · exact .inl rfl
    · exact .inr (.inl ⟨rfl, rfl⟩)
    · exact .inr (.inr ⟨rfl, rfl⟩)
    · exact .inl rfl

theorem OppositeZeros.beq {x y : Float} (h : OppositeZeros x y) : (x == y) = true := by
  rcases h with ⟨rfl, rfl⟩ | ⟨rfl, rfl⟩ <;> rfl

theorem OppositeZeros.ne {x y : Float} (h : OppositeZeros x y) : x ≠ y := by
  have hbits : positiveZero ≠ negativeZero := by decide
  rcases h with ⟨rfl, rfl⟩ | ⟨rfl, rfl⟩
  · exact hbits
  · exact hbits.symm

theorem OppositeZeros.symm {x y : Float} (h : OppositeZeros x y) : OppositeZeros y x :=
  Or.elim h (fun h => .inr h.symm) (fun h => .inl h.symm)

theorem OppositeZeros.cancel {x y z : Float} (h : OppositeZeros x y) (h' : OppositeZeros y z) :
    x = z := by
  rcases h with ⟨rfl, rfl⟩ | ⟨rfl, rfl⟩ <;> rcases h' with ⟨hy, rfl⟩ | ⟨hy, rfl⟩
  · exact hy.symm
  · rfl
  · rfl
  · exact hy.symm

/-! ## No number -/

theorem parts_of_isNaN {b : BitVec Format.binary64.numBits}
    (h : (UnpackedFloat.unpack .binary64 b).isNaN = true) :
    unpackExponent b = -1#11 ∧ unpackMantissa b ≠ 0#52 := by
  rcases unpack_cases b with ⟨-, -, hu⟩ | ⟨he, hm, -⟩ | ⟨-, -, hu⟩ | ⟨-, _, hu⟩ | ⟨_, hu⟩
  · rw [hu] at h
    cases h
  · exact ⟨he, hm⟩
  all_goals
    rw [hu] at h
    cases h

/-- There is one double that is no number. -/
theorem eq_of_isNaN {x y : Float} (hx : x.isNaN = true) (hy : y.isNaN = true) : x = y := by
  have bits : ∀ {z : Float}, z.isNaN = true →
      z.toModel.toBits.toBitVec = packedNaN .binary64 := by
    intro z hz
    obtain ⟨he, hm⟩ := parts_of_isNaN hz
    exact z.toModel.valid.eq_packedNaN he hm
  exact eq_of_bits ((bits hx).trans (bits hy).symm)

/-- A double equals itself unless it is no number. -/
theorem beq_self (x : Float) : (x == x || (x.isNaN && x.isNaN)) = true := by
  have hself : ∀ u : UnpackedFloat, u.beq u = true ∨ u.isNaN = true := by
    intro u
    cases u with
    | notANumber => exact .inr rfl
    | infinity s => cases s <;> exact .inl rfl
    | zero s => exact .inl rfl
    | finite s m e hm =>
      refine .inl ?_
      show (UnpackedFloat.compare (.finite s m e hm) (.finite s m e hm) == some .eq) = true
      cases s <;>
      · dsimp only [UnpackedFloat.compare]
        simp
  rw [Bool.and_self, Bool.or_eq_true]
  exact hself x.toModel.unpack

end Decimal
end ScriptEngine
