/-
Numbers without a sign.

The constant pool holds two numbers as one when they are equal as numbers.  Equal
numbers are the same double, except that zero has two, so a program that puts the
pool's number where the script has its own is right only if no literal is the
negative zero.  It never is: the text of a literal has no sign, and a double read
from such a text has none (`read?_unsigned`).  Among doubles without a sign the
pool's equality is equality (`eq_of_same`).
-/
import ScriptEngine.Bytecode.Constant
import ScriptEngine.Decimal.Reading
import ScriptEngine.Proofs.Decimal.Equality

namespace ScriptEngine
namespace Decimal

open Float.Model Float.Model.UnpackedFloat

/-- The sign bit of a double. -/
def signBit (x : Float) : BitVec 1 := @unpackSign .binary64 x.toModel.toBits.toBitVec

/-- The double has no minus sign. -/
def Unsigned (x : Float) : Prop := signBit x = 0#1

/-- The unpacked number has no minus sign. -/
def Positive : UnpackedFloat → Prop
  | .infinity s => s = .positive
  | .notANumber => True
  | .zero s => s = .positive
  | .finite s _ _ _ => s = .positive

/-! ## Packing -/

theorem unpackSign_packComponents {spec : Format} (sign : Sign)
    (exponent : BitVec spec.exponentBits) (mantissa : BitVec spec.mantissaBitsWithoutImplicit) :
    unpackSign (packComponents spec sign exponent mantissa) = sign.toBitVec := by
  refine BitVec.eq_of_getLsbD_eq fun i hi => ?_
  have hzero : i = 0 := by omega
  subst hzero
  rw [getLsbD_unpackSign]
  simp [packComponents, BitVec.getLsbD_append, BitVec.getElem_append]

theorem unsigned_pack {u : UnpackedFloat} (h : Positive u) : Unsigned (.ofModel (pack u)) := by
  show @unpackSign .binary64 (UnpackedFloat.pack .binary64 u) = 0#1
  cases u with
  | notANumber => exact unpackSign_packComponents _ _ _
  | infinity s =>
    cases h
    exact unpackSign_packComponents _ _ _
  | zero s =>
    cases h
    exact unpackSign_packComponents _ _ _
  | finite s m e hm =>
    cases h
    unfold UnpackedFloat.pack
    dsimp only
    split
    · exact unpackSign_packComponents _ _ _
    · split <;> exact unpackSign_packComponents _ _ _

theorem positive_unpack {x : Float} (h : Unsigned x) : Positive x.toModel.unpack := by
  have hsign : Sign.ofBitVec (signBit x) = .positive := by
    rw [h]
    rfl
  show Positive (UnpackedFloat.unpack .binary64 x.toModel.toBits.toBitVec)
  rcases unpack_cases x.toModel.toBits.toBitVec with
    ⟨-, -, hu⟩ | ⟨-, -, hu⟩ | ⟨-, -, hu⟩ | ⟨-, _, hu⟩ | ⟨_, hu⟩ <;> rw [hu]
  · exact hsign
  · trivial
  · exact hsign
  · exact hsign
  · exact hsign

theorem eq_of_equal {x y : Float} (hx : Unsigned x) (hy : Unsigned y) (h : (x == y) = true) :
    x = y := by
  have hnegative : ¬ Unsigned negativeZero := by
    unfold Unsigned
    decide
  rcases eq_or_opposite_of_beq h with heq | ⟨-, rfl⟩ | ⟨rfl, -⟩
  · exact heq
  · exact absurd hy hnegative
  · exact absurd hx hnegative

/-! ## Reading -/

theorem positive_dite {c : Prop} [Decidable c] {u : c → UnpackedFloat} {v : ¬ c → UnpackedFloat}
    (hu : ∀ h, Positive (u h)) (hv : ∀ h, Positive (v h)) : Positive (dite c u v) := by
  by_cases h : c
  · rw [dif_pos h]
    exact hu h
  · rw [dif_neg h]
    exact hv h

theorem positive_ite {c : Prop} [Decidable c] {u v : UnpackedFloat} (hu : Positive u)
    (hv : Positive v) : Positive (if c then u else v) := positive_dite (fun _ => hu) fun _ => hv

theorem positive_round {s : Format} {m : Nat} {e : Int} {a : Accuracy} :
    Positive (roundWithAccuracy s .positive m e a) := by
  unfold roundWithAccuracy
  exact positive_dite (fun _ => rfl) fun _ => rfl

theorem positive_mul {s : Format} {u v : UnpackedFloat} (hu : Positive u) (hv : Positive v) :
    Positive (mul s u v) := by
  cases u <;> cases v <;> cases hu <;> cases hv <;>
    first | exact positive_round | trivial

theorem positive_div {s : Format} {u v : UnpackedFloat} (hu : Positive u) (hv : Positive v) :
    Positive (div s u v) := by
  cases u <;> cases v <;> cases hu <;> cases hv <;>
    first | exact positive_round | trivial

theorem positive_ofNat {s : Format} {n : Nat} : Positive (UnpackedFloat.ofNat s n) := by
  unfold UnpackedFloat.ofNat UnpackedFloat.ofInt UnpackedFloat.normalize
  split
  · next h =>
    have hlt : (n : Int) < 0 := Std.compare_eq_lt.mp h
    omega
  · rfl
  · exact positive_round

theorem positive_ofScientific {s : Format} {m : Nat} {e : Int} :
    Positive (UnpackedFloat.ofScientific s m e) := by
  unfold UnpackedFloat.ofScientific
  refine positive_dite (fun _ => rfl) fun _ => positive_ite rfl (positive_ite rfl ?_)
  exact positive_ite (positive_mul rfl rfl) (positive_div rfl rfl)

theorem unsigned_powerOfTen (i : Nat) (h : i < Float.exactlyRepresentablePowersOfTen.size) :
    Unsigned Float.exactlyRepresentablePowersOfTen[i] := by
  have table : ∀ x ∈ Float.exactlyRepresentablePowersOfTen, signBit x = 0#1 := by decide
  exact table _ (Array.getElem_mem h)

theorem unsigned_ofScientific (m : Nat) (negative : Bool) (e : Nat) :
    Unsigned (Float.ofScientific m negative e) := by
  unfold Float.ofScientific
  split
  · have hm : Positive (UInt64.toFloat m.toUInt64).toModel.unpack :=
      positive_unpack (unsigned_pack positive_ofNat)
    dsimp only
    split
    · exact unsigned_pack (positive_div hm (positive_unpack (unsigned_powerOfTen _ _)))
    · exact unsigned_pack (positive_mul hm (positive_unpack (unsigned_powerOfTen _ _)))
  · exact unsigned_pack positive_ofScientific

theorem unsigned_nearest (digits : Nat) (scale : Int) : Unsigned (nearest digits scale) := by
  unfold nearest
  dsimp only
  split
  · exact unsigned_ofScientific _ _ _
  · split
    · exact (by decide : signBit (Float.ofBits 0x7FF0000000000000) = 0#1)
    · split
      · exact unsigned_ofScientific _ _ _
      · exact unsigned_ofScientific _ _ _

theorem readUnsigned?_unsigned {cs : List Char} {x : Float} (h : readUnsigned? cs = some x) :
    Unsigned x := by
  unfold readUnsigned? at h
  split at h
  · cases h
    exact (by decide : signBit (Float.ofBits 0x7FF0000000000000) = 0#1)
  · cases h
    exact (by decide : signBit (Float.ofBits 0x7FF0000000000000) = 0#1)
  · cases h
    exact (by decide : signBit (Float.ofBits 0x7FF8000000000000) = 0#1)
  · unfold readNumeral? at h
    dsimp only at h
    split at h <;> split at h
    · cases h
    · obtain ⟨e, -, rfl⟩ := Option.map_eq_some_iff.mp h
      exact unsigned_nearest _ _
    · cases h
    · obtain ⟨e, -, rfl⟩ := Option.map_eq_some_iff.mp h
      exact unsigned_nearest _ _

/-- A number read from a text that begins with no minus has no sign. -/
theorem read?_unsigned {text : String} {x : Float} (ht : text.toList.head? ≠ some '-')
    (h : read? text = some x) : Unsigned x := by
  unfold read? at h
  split at h
  · next heq => simp [heq] at ht
  · exact readUnsigned?_unsigned h
  · exact readUnsigned?_unsigned h

end Decimal

namespace Constant

/-- The constant has no minus sign. -/
def IsUnsigned : Constant → Prop
  | number x => Decimal.Unsigned x
  | _ => True

theorem same_self (k : Constant) : k.same k = true := by
  cases k with
  | number x => exact Decimal.beq_self x
  | bool b => exact beq_self_eq_true b
  | string s => exact beq_self_eq_true s

theorem eq_of_same {j k : Constant} (hj : j.IsUnsigned) (hk : k.IsUnsigned)
    (h : j.same k = true) : j = k := by
  cases j <;> cases k <;> try cases h
  · rename_i x y
    rcases Bool.or_eq_true_iff.mp h with h | h
    · rw [Decimal.eq_of_equal hj hk h]
    · rw [Decimal.eq_of_isNaN (Bool.and_eq_true_iff.mp h).1 (Bool.and_eq_true_iff.mp h).2]
  · rw [eq_of_beq h]
  · rw [eq_of_beq h]

def AllUnsigned (ks : List Constant) : Prop := ∀ k ∈ ks, k.IsUnsigned

namespace AllUnsigned

variable {ks ks' : List Constant}

theorem left (h : AllUnsigned (ks ++ ks')) : AllUnsigned ks :=
  fun k hk => h k (List.mem_append_left _ hk)

theorem right (h : AllUnsigned (ks ++ ks')) : AllUnsigned ks' :=
  fun k hk => h k (List.mem_append_right _ hk)

theorem append (h : AllUnsigned ks) (h' : AllUnsigned ks') : AllUnsigned (ks ++ ks') :=
  fun k hk => (List.mem_append.mp hk).elim (h k) (h' k)

end AllUnsigned

end Constant
end ScriptEngine
