/-
The doubles that decimal numerals round to.

The reals that round to a double form an interval.  Between neighbouring doubles the intervals
meet in one point, which belongs to the double with the even mantissa (`upper_eq_lower_succ`), so no
real rounds to two doubles (`Contains.unique`).  The shortest numeral of a double lies in its
interval (`contains_shortest`): a point of a grid is taken only if it does, and the grid of
seventeen digits is finer than the interval is wide (`Finite.wide`).
-/
import Mathlib.Algebra.Order.Field.Power
import Mathlib.Tactic.Linarith
import Mathlib.Tactic.NormNum
import Mathlib.Tactic.Positivity
import Mathlib.Tactic.Ring
import ScriptEngine.Proofs.Native.Integers

namespace ScriptEngine
namespace Decimal

/-! ## Powers of ten -/

theorem zpow_eq_div (base : ℚ) (i : Int) :
    base ^ i = base ^ i.toNat / base ^ (-i).toNat := by
  obtain ⟨n, rfl | rfl⟩ := i.eq_nat_or_neg
  · have hneg : (-(n : Int)).toNat = 0 := by omega
    rw [hneg, Int.toNat_natCast, zpow_natCast, pow_zero, div_one]
  · have hpos : (-(n : Int)).toNat = 0 := by omega
    rw [hpos, neg_neg, Int.toNat_natCast, zpow_neg, zpow_natCast, pow_zero, one_div]

theorem ten_pow_le_two_pow {j t : Nat} (h : 103 * j ≤ 31 * t) : (10 : ℚ) ^ j ≤ 2 ^ t := by
  have hroot : ((10 : ℚ) ^ j) ^ 31 ≤ (2 ^ t) ^ 31 := by
    calc ((10 : ℚ) ^ j) ^ 31 = (10 ^ 31) ^ j := by rw [← pow_mul, ← pow_mul, Nat.mul_comm]
      _ ≤ (2 ^ 103) ^ j := pow_le_pow_left₀ (by norm_num) (by norm_num) j
      _ = 2 ^ (103 * j) := by rw [← pow_mul]
      _ ≤ 2 ^ (31 * t) := pow_le_pow_right₀ (by norm_num) h
      _ = (2 ^ t) ^ 31 := by rw [← pow_mul, Nat.mul_comm]
  exact (pow_le_pow_iff_left₀ (by positivity) (by positivity) (by norm_num)).mp hroot

theorem two_pow_le_ten_pow {j t : Nat} (h : 28 * t ≤ 93 * j) : (2 : ℚ) ^ t ≤ 10 ^ j := by
  have hroot : ((2 : ℚ) ^ t) ^ 28 ≤ (10 ^ j) ^ 28 := by
    calc ((2 : ℚ) ^ t) ^ 28 = 2 ^ (28 * t) := by rw [← pow_mul, Nat.mul_comm]
      _ ≤ 2 ^ (93 * j) := pow_le_pow_right₀ (by norm_num) h
      _ = (2 ^ 93) ^ j := by rw [← pow_mul]
      _ ≤ (10 ^ 28) ^ j := pow_le_pow_left₀ (by norm_num) (by norm_num) j
      _ = (10 ^ j) ^ 28 := by rw [← pow_mul, ← pow_mul, Nat.mul_comm]
  exact (pow_le_pow_iff_left₀ (by positivity) (by positivity) (by norm_num)).mp hroot

/-- The guess from the binary size is at most one digit too large. -/
theorem ten_zpow_le_two_zpow {s : Int} (hlow : -1100 ≤ s) (hhigh : s ≤ 1100) :
    (10 : ℚ) ^ (s * 30103 / 100000 - 1) ≤ 2 ^ s := by
  generalize hk : s * 30103 / 100000 - 1 = k
  have hbound : 100000 * (k + 1) ≤ 30103 * s := by omega
  rcases Int.le_total 0 s with hs | hs
  · obtain ⟨t, rfl⟩ := Int.eq_ofNat_of_zero_le hs
    rcases Int.le_total k 0 with hk0 | hk0
    · calc (10 : ℚ) ^ k ≤ 10 ^ (0 : Int) := zpow_le_zpow_right₀ (by norm_num) hk0
        _ ≤ 2 ^ (t : Int) := by
          rw [zpow_zero, zpow_natCast]
          exact one_le_pow₀ (by norm_num)
    · obtain ⟨j, rfl⟩ := Int.eq_ofNat_of_zero_le hk0
      rw [zpow_natCast, zpow_natCast]
      exact ten_pow_le_two_pow (by omega)
  · obtain ⟨t, rfl⟩ : ∃ t : Nat, s = -(t : Int) := ⟨(-s).toNat, by omega⟩
    obtain ⟨j, rfl⟩ : ∃ j : Nat, k = -(j : Int) := ⟨(-k).toNat, by omega⟩
    rw [zpow_neg, zpow_neg, zpow_natCast, zpow_natCast]
    exact inv_anti₀ (by positivity) (two_pow_le_ten_pow (by omega))

/-- The value of a numeral. -/
def Numeral.value (n : Numeral) : ℚ := n.digits * 10 ^ n.scale

namespace Target

variable {t : Target} {x : ℚ} {scale : Int} {count : Nat}

/-! ## Grids -/

/-- The number that a target stands for, between the ends of its interval. -/
def middle (t : Target) : ℚ := t.value / t.denominator

def lower (t : Target) : ℚ := t.low / t.denominator

def upper (t : Target) : ℚ := t.high / t.denominator

/-- The number rounds to the target. -/
def Contains (t : Target) (x : ℚ) : Prop :=
  if t.closed then t.lower ≤ x ∧ x ≤ t.upper else t.lower < x ∧ x < t.upper

theorem Contains.lower_le (h : t.Contains x) : t.lower ≤ x := by
  unfold Contains at h
  split at h
  · exact h.1
  · exact h.1.le

theorem Contains.le_upper (h : t.Contains x) : x ≤ t.upper := by
  unfold Contains at h
  split at h
  · exact h.2
  · exact h.2.le

/-- A number at an end of the interval rounds to the target only if the interval is closed. -/
theorem Contains.closed (h : t.Contains x) (hend : x = t.lower ∨ x = t.upper) :
    t.closed = true := by
  unfold Contains at h
  split at h
  · assumption
  · rcases hend with rfl | rfl
    · exact absurd h.1 (lt_irrefl _)
    · exact absurd h.2 (lt_irrefl _)

theorem contains_of_lt (hlower : t.lower < x) (hupper : x < t.upper) : t.Contains x := by
  unfold Contains
  split
  · exact ⟨hlower.le, hupper.le⟩
  · exact ⟨hlower, hupper⟩

/-! ## Points of a grid -/

theorem value_numeral (count : Nat) (scale : Int) : Numeral.value ⟨count, scale⟩ =
    ((count * Nat.pow 10 scale.toNat : Nat) : ℚ) / (Nat.pow 10 (-scale).toNat : Nat) := by
  show (count : ℚ) * 10 ^ scale = _
  rw [zpow_eq_div, Nat.cast_mul, mul_div_assoc]
  norm_num [Nat.pow_eq]

theorem holds_iff (hd : 0 < t.denominator) :
    t.holds count scale = true ↔ t.Contains (Numeral.value ⟨count, scale⟩) := by
  have hd' : (0 : ℚ) < t.denominator := by exact_mod_cast hd
  have hunit : (0 : ℚ) < (Nat.pow 10 (-scale).toNat : Nat) := by
    exact_mod_cast Nat.pow_pos (by norm_num)
  unfold holds Contains lower upper
  rw [value_numeral, div_le_div_iff₀ hd' hunit, div_le_div_iff₀ hunit hd',
    div_lt_div_iff₀ hd' hunit, div_lt_div_iff₀ hunit hd']
  norm_cast
  cases t.closed <;> simp

/-- The point of the grid below the value is the last one that is not above it. -/
theorem floorAt_spec (hd : 0 < t.denominator) (scale : Int) :
    Numeral.value ⟨t.floorAt scale, scale⟩ ≤ t.middle ∧
      t.middle < Numeral.value ⟨t.floorAt scale + 1, scale⟩ := by
  have hd' : (0 : ℚ) < t.denominator := by exact_mod_cast hd
  have hunit : (0 : ℚ) < (Nat.pow 10 (-scale).toNat : Nat) := by
    exact_mod_cast Nat.pow_pos (by norm_num)
  have hwhole : 0 < t.denominator * Nat.pow 10 scale.toNat :=
    Nat.mul_pos hd (Nat.pow_pos (by norm_num))
  have hfloor : t.floorAt scale * (t.denominator * Nat.pow 10 scale.toNat) ≤
      t.value * Nat.pow 10 (-scale).toNat := Nat.div_mul_le_self _ _
  have hceil : t.value * Nat.pow 10 (-scale).toNat <
      (t.floorAt scale + 1) * (t.denominator * Nat.pow 10 scale.toNat) :=
    (Nat.div_lt_iff_lt_mul hwhole).mp (Nat.lt_succ_self _)
  rw [value_numeral, value_numeral, middle, div_le_div_iff₀ hunit hd', div_lt_div_iff₀ hd' hunit]
  norm_cast
  constructor
  · linarith
  · linarith

/-- A point of a grid is taken only if it rounds to the target. -/
theorem contains_of_onGrid (hd : 0 < t.denominator) {n : Numeral} (h : t.onGrid? scale = some n) :
    t.Contains n.value := by
  unfold onGrid? at h
  dsimp only at h
  split at h
  case h_1 hthis hnext =>
    cases h
    split
    · exact (holds_iff hd).mp hthis
    · exact (holds_iff hd).mp hnext
  case h_2 hthis _ =>
    cases h
    exact (holds_iff hd).mp hthis
  case h_3 _ hnext =>
    cases h
    exact (holds_iff hd).mp hnext
  case h_4 => cases h

/-- A grid without a point that rounds to the target is coarser than its interval is wide. -/
theorem width_le_of_onGrid_none (hd : 0 < t.denominator) (hlower : t.lower < t.middle)
    (hupper : t.middle < t.upper) (h : t.onGrid? scale = none) :
    t.upper - t.lower ≤ 10 ^ scale := by
  obtain ⟨hfloor, hceil⟩ := floorAt_spec hd scale
  have hnone : ¬t.Contains (Numeral.value ⟨t.floorAt scale, scale⟩) ∧
      ¬t.Contains (Numeral.value ⟨t.floorAt scale + 1, scale⟩) := by
    rw [← holds_iff hd, ← holds_iff hd]
    unfold onGrid? at h
    dsimp only at h
    split at h <;> simp_all
  have hbelow : Numeral.value ⟨t.floorAt scale, scale⟩ ≤ t.lower := by
    refine le_of_not_gt fun hlt => hnone.1 (contains_of_lt hlt (hfloor.trans_lt hupper))
  have habove : t.upper ≤ Numeral.value ⟨t.floorAt scale + 1, scale⟩ := by
    refine le_of_not_gt fun hlt => hnone.2 (contains_of_lt (hlower.trans hceil) hlt)
  have hstep : Numeral.value ⟨t.floorAt scale + 1, scale⟩ =
      Numeral.value ⟨t.floorAt scale, scale⟩ + 10 ^ scale := by
    simp only [Numeral.value]
    push_cast
    ring
  linarith

/-! ## The number of digits before the point -/

theorem ten_zpow_le_of_floorAt (hd : 0 < t.denominator) (h : t.floorAt scale ≠ 0) :
    (10 : ℚ) ^ scale ≤ t.middle := by
  have hone : (1 : ℚ) ≤ t.floorAt scale := by exact_mod_cast Nat.one_le_iff_ne_zero.mpr h
  have hpos : (0 : ℚ) < 10 ^ scale := by positivity
  refine le_trans ?_ (floorAt_spec hd scale).1
  show (10 : ℚ) ^ scale ≤ t.floorAt scale * 10 ^ scale
  nlinarith

theorem ten_zpow_le_raiseScale (hd : 0 < t.denominator) (steps : Nat) {scale : Int}
    (h : (10 : ℚ) ^ (scale - 1) ≤ t.middle) :
    (10 : ℚ) ^ (t.raiseScale steps scale - 1) ≤ t.middle := by
  induction steps generalizing scale with
  | zero => exact h
  | succ steps ih =>
    rw [raiseScale]
    split
    case isTrue => exact h
    case isFalse hfloor =>
      refine ih ?_
      rw [Int.add_sub_cancel]
      exact ten_zpow_le_of_floorAt hd hfloor

theorem two_zpow_le_middle (hd : 0 < t.denominator) (hv : 0 < t.value) :
    (2 : ℚ) ^ ((t.value.log2 : Int) - t.denominator.log2 - 1) ≤ t.middle := by
  have hvalue : (2 : ℚ) ^ t.value.log2 ≤ t.value := by
    exact_mod_cast Nat.log2_self_le hv.ne'
  have hdenominator : (t.denominator : ℚ) ≤ 2 ^ (t.denominator.log2 + 1) := by
    exact_mod_cast Nat.lt_log2_self.le
  have hd' : (0 : ℚ) < t.denominator := by exact_mod_cast hd
  rw [sub_sub, zpow_sub₀ (by norm_num), zpow_natCast]
  have hcast : (2 : ℚ) ^ ((t.denominator.log2 : Int) + 1) = 2 ^ (t.denominator.log2 + 1) := by
    exact_mod_cast zpow_natCast (2 : ℚ) (t.denominator.log2 + 1)
  rw [hcast, middle]
  exact div_le_div₀ (by positivity) hvalue hd' hdenominator

/-- The value has a digit at the magnitude that was found. -/
theorem ten_zpow_le_magnitude (hd : 0 < t.denominator) (hv : 0 < t.value)
    (hvalue : t.value.log2 ≤ 1100) (hdenominator : t.denominator.log2 ≤ 1099) :
    (10 : ℚ) ^ (t.magnitude - 1) ≤ t.middle := by
  refine ten_zpow_le_raiseScale hd 4 ?_
  exact (ten_zpow_le_two_zpow (by omega) (by omega)).trans (two_zpow_le_middle hd hv)

/-- The shortest numeral rounds to the target, if the interval is not too narrow for the grid of
seventeen digits. -/
theorem contains_shortest (hd : 0 < t.denominator) (hlower : t.lower < t.middle)
    (hupper : t.middle < t.upper) (hmagnitude : (10 : ℚ) ^ (t.magnitude - 1) ≤ t.middle)
    (hwide : t.middle < 10 ^ 16 * (t.upper - t.lower)) : t.Contains t.shortest.value := by
  unfold shortest
  dsimp only
  split
  case h_1 n hfound =>
    obtain ⟨k, -, hgrid⟩ := List.exists_of_findSome?_eq_some hfound
    exact contains_of_onGrid hd hgrid
  case h_2 hnone =>
    have hgrid : t.onGrid? (t.magnitude - 1 - (16 : Nat)) = none :=
      List.findSome?_eq_none_iff.mp hnone 16 (List.mem_range.mpr (by norm_num))
    have hwidth := width_le_of_onGrid_none hd hlower hupper hgrid
    have hpower : (10 : ℚ) ^ 16 * 10 ^ (t.magnitude - 1 - (16 : Nat)) = 10 ^ (t.magnitude - 1) := by
      rw [zpow_sub₀ (by norm_num), zpow_natCast]
      ring
    linarith

/-! ## The intervals of doubles -/

/-- The quarter of the last place of a double with these magnitude bits. -/
def quarter (bits : Nat) : ℚ := 2 ^ ((Decimal.scale bits : Int) - 1077)

/-- How far the interval of a double reaches below it, in quarters of the last place. -/
def reach (bits : Nat) : Nat :=
  if bits % Nat.pow 2 52 = 0 ∧ 1 < biasedExponent bits then 1 else 2

section
variable {bits : Nat}

theorem quarter_pos (bits : Nat) : 0 < quarter bits := by
  unfold quarter
  positivity

theorem quarters (n bits : Nat) :
    ((n * Nat.pow 2 ((Decimal.scale bits : Int) - 1077).toNat : Nat) : ℚ) /
      (Nat.pow 2 (-((Decimal.scale bits : Int) - 1077)).toNat : Nat) = n * quarter bits := by
  unfold quarter
  rw [zpow_eq_div, Nat.cast_mul, mul_div_assoc]
  norm_num [Nat.pow_eq]

theorem middle_ofBits : (ofBits bits).middle = (4 * mantissa bits : Nat) * quarter bits :=
  quarters (4 * mantissa bits) bits

theorem upper_ofBits : (ofBits bits).upper = (4 * mantissa bits + 2 : Nat) * quarter bits :=
  quarters (4 * mantissa bits + 2) bits

theorem lower_ofBits :
    (ofBits bits).lower = (4 * mantissa bits - reach bits : Nat) * quarter bits :=
  quarters (4 * mantissa bits - reach bits) bits

theorem denominator_pos : 0 < (ofBits bits).denominator := Nat.pow_pos (by norm_num)

/-- The magnitude bits of a finite double that is not zero. -/
structure Finite (bits : Nat) : Prop where
  pos : 0 < bits
  lt : bits < 0x7FF0000000000000

theorem biasedExponent_eq (h : bits < 0x7FF0000000000000) :
    biasedExponent bits = bits / 2 ^ 52 :=
  Nat.mod_eq_of_lt (Nat.div_lt_of_lt_mul (by norm_num; omega))

theorem mantissa_of_zero (h : biasedExponent bits = 0) : mantissa bits = bits % 2 ^ 52 := if_pos h

theorem mantissa_of_ne_zero (h : biasedExponent bits ≠ 0) :
    mantissa bits = 2 ^ 52 + bits % 2 ^ 52 := if_neg h

theorem scale_of_zero (h : biasedExponent bits = 0) : Decimal.scale bits = 1 := if_pos h

theorem scale_of_ne_zero (h : biasedExponent bits ≠ 0) :
    Decimal.scale bits = biasedExponent bits := if_neg h

/-- The intervals of neighbours with one exponent meet. -/
theorem upper_eq_lower_of_ne (h : bits + 1 < 0x7FF0000000000000) (hcarry : (bits + 1) % 2 ^ 52 ≠ 0) :
    (ofBits bits).upper = (ofBits (bits + 1)).lower := by
  have hbiased : biasedExponent bits = bits / 2 ^ 52 := biasedExponent_eq (by omega)
  have hnext := biasedExponent_eq h
  have hfraction : (bits + 1) % 2 ^ 52 = bits % 2 ^ 52 + 1 := by omega
  have hexponent : biasedExponent (bits + 1) = biasedExponent bits := by omega
  have hr : reach (bits + 1) = 2 := if_neg fun hreach => hcarry hreach.1
  have hm : mantissa (bits + 1) = mantissa bits + 1 := by
    by_cases hzero : biasedExponent bits = 0
    · rw [mantissa_of_zero hzero, mantissa_of_zero (hexponent.trans hzero), hfraction]
    · rw [mantissa_of_ne_zero hzero, mantissa_of_ne_zero (hexponent ▸ hzero), hfraction]
      omega
  have hs : Decimal.scale (bits + 1) = Decimal.scale bits := by
    simp only [Decimal.scale, hexponent]
  have hends : 4 * (mantissa bits + 1) - 2 = 4 * mantissa bits + 2 := by omega
  rw [upper_ofBits, lower_ofBits, quarter, quarter, hm, hs, hr, hends]

/-- The intervals of neighbours meet at a power of two, where the exponent grows. -/
theorem upper_eq_lower_of_eq (h : bits + 1 < 0x7FF0000000000000) (hcarry : (bits + 1) % 2 ^ 52 = 0) :
    (ofBits bits).upper = (ofBits (bits + 1)).lower := by
  have hbiased : biasedExponent bits = bits / 2 ^ 52 := biasedExponent_eq (by omega)
  have hnext := biasedExponent_eq h
  have hfraction : bits % 2 ^ 52 = 2 ^ 52 - 1 := by omega
  have hexponent : biasedExponent (bits + 1) = biasedExponent bits + 1 := by omega
  have hm : mantissa (bits + 1) = 2 ^ 52 := by
    rw [mantissa_of_ne_zero (by omega), hcarry, Nat.add_zero]
  have hs : Decimal.scale (bits + 1) = biasedExponent bits + 1 :=
    (scale_of_ne_zero (by omega)).trans hexponent
  rw [upper_ofBits, lower_ofBits, quarter, quarter, hm, hs]
  by_cases hzero : biasedExponent bits = 0
  · -- the least normal number lies behind the greatest one below the normal numbers
    have hr : reach (bits + 1) = 2 := if_neg (by omega)
    rw [mantissa_of_zero hzero, hfraction, hr, scale_of_zero hzero, hzero]
    norm_num
  · have hr : reach (bits + 1) = 1 := if_pos ⟨hcarry, by omega⟩
    have hunit : (2 : ℚ) ^ (((biasedExponent bits + 1 : Nat) : Int) - 1077) =
        2 * 2 ^ ((biasedExponent bits : Int) - 1077) := by
      rw [← zpow_one_add₀ (by norm_num)]
      congr 1
      push_cast
      ring
    rw [mantissa_of_ne_zero hzero, hfraction, hr, scale_of_ne_zero hzero, hunit]
    norm_num
    ring

/-- The intervals of neighbours meet. -/
theorem upper_eq_lower_succ (h : bits + 1 < 0x7FF0000000000000) :
    (ofBits bits).upper = (ofBits (bits + 1)).lower := by
  by_cases hcarry : (bits + 1) % 2 ^ 52 = 0
  · exact upper_eq_lower_of_eq h hcarry
  · exact upper_eq_lower_of_ne h hcarry

theorem Finite.mantissa_pos (h : Finite bits) : 0 < mantissa bits := by
  have hbiased := biasedExponent_eq h.lt
  have hpos := h.pos
  by_cases hzero : biasedExponent bits = 0
  · rw [mantissa_of_zero hzero]
    omega
  · rw [mantissa_of_ne_zero hzero]
    omega

theorem mantissa_lt (bits : Nat) : mantissa bits < 2 ^ 53 := by
  by_cases hzero : biasedExponent bits = 0
  · rw [mantissa_of_zero hzero]
    omega
  · rw [mantissa_of_ne_zero hzero]
    omega

/-- The interval reaches less far below a power of two. -/
theorem reach_cases (bits : Nat) : reach bits = 2 ∨ reach bits = 1 ∧ mantissa bits = 2 ^ 52 := by
  unfold reach
  split
  case isTrue hreach =>
    obtain ⟨hfraction, hexponent⟩ := hreach
    have hfraction : bits % 2 ^ 52 = 0 := hfraction
    refine .inr ⟨rfl, ?_⟩
    rw [mantissa_of_ne_zero (by omega), hfraction, Nat.add_zero]
  case isFalse => exact .inl rfl

/-- The ends of the interval, measured from the middle. -/
theorem Finite.ends (h : Finite bits) :
    (ofBits bits).lower = (ofBits bits).middle - reach bits * quarter bits ∧
      (ofBits bits).upper = (ofBits bits).middle + 2 * quarter bits := by
  have hpos := h.mantissa_pos
  have hreach : reach bits ≤ 4 * mantissa bits := by
    rcases reach_cases bits with hr | ⟨hr, -⟩ <;> omega
  rw [lower_ofBits, upper_ofBits, middle_ofBits, Nat.cast_sub hreach]
  constructor
  · ring
  · push_cast
    ring

theorem Finite.lower_lt (h : Finite bits) : (ofBits bits).lower < (ofBits bits).middle := by
  have hquarter := quarter_pos bits
  have hreach : (0 : ℚ) < reach bits := by
    rcases reach_cases bits with hr | ⟨hr, -⟩ <;> norm_num [hr]
  rw [h.ends.1]
  linarith [mul_pos hreach hquarter]

theorem Finite.lt_upper (h : Finite bits) : (ofBits bits).middle < (ofBits bits).upper := by
  rw [h.ends.2]
  linarith [quarter_pos bits]

/-- Seventeen digits are enough for every double. -/
theorem Finite.wide (h : Finite bits) :
    (ofBits bits).middle < 10 ^ 16 * ((ofBits bits).upper - (ofBits bits).lower) := by
  have hquarter := quarter_pos bits
  rw [h.ends.1, h.ends.2, middle_ofBits]
  rcases reach_cases bits with hr | ⟨hr, hm⟩
  · have hm := mantissa_lt bits
    have hlt : ((4 * mantissa bits : Nat) : ℚ) < (10 ^ 16 * 4 : Nat) := by
      exact_mod_cast (by omega : 4 * mantissa bits < 10 ^ 16 * 4)
    rw [hr]
    push_cast at hlt ⊢
    nlinarith
  · rw [hr, hm]
    norm_num
    linarith

theorem closed_iff (h : bits < 0x7FF0000000000000) : (ofBits bits).closed = true ↔ bits % 2 = 0 := by
  have hbiased := biasedExponent_eq h
  have hclosed : (ofBits bits).closed = true ↔ mantissa bits % 2 = 0 := decide_eq_true_iff
  rw [hclosed]
  by_cases hzero : biasedExponent bits = 0
  · rw [mantissa_of_zero hzero]
    omega
  · rw [mantissa_of_ne_zero hzero]
    omega

end

/-- The interval of a greater double lies above that of a smaller one, and the two meet only if the
doubles are neighbours. -/
theorem upper_le_lower {a : Nat} (ha : 0 < a) (k : Nat) (hb : a + 1 + k < 0x7FF0000000000000) :
    (ofBits a).upper ≤ (ofBits (a + 1 + k)).lower ∧
      ((ofBits a).upper = (ofBits (a + 1 + k)).lower → k = 0) := by
  induction k with
  | zero => exact ⟨(upper_eq_lower_succ hb).le, fun _ => rfl⟩
  | succ k ih =>
    have hmiddle : Finite (a + 1 + k) := ⟨by omega, by omega⟩
    have hmeet : (ofBits (a + 1 + k)).upper = (ofBits (a + 1 + (k + 1))).lower :=
      upper_eq_lower_succ hb
    have hless : (ofBits a).upper < (ofBits (a + 1 + (k + 1))).lower := by
      calc (ofBits a).upper ≤ (ofBits (a + 1 + k)).lower := (ih hmiddle.lt).1
        _ < (ofBits (a + 1 + k)).middle := hmiddle.lower_lt
        _ < (ofBits (a + 1 + k)).upper := hmiddle.lt_upper
        _ = (ofBits (a + 1 + (k + 1))).lower := hmeet
    exact ⟨hless.le, fun heq => absurd heq hless.ne⟩

theorem Contains.not_lt {a b : Nat} (ha : Finite a) (hb : Finite b)
    (hxa : (ofBits a).Contains x) (hxb : (ofBits b).Contains x) : ¬a < b := by
  intro hlt
  obtain ⟨k, rfl⟩ := Nat.exists_eq_add_of_le (show a + 1 ≤ b from hlt)
  obtain ⟨hle, hmeet⟩ := upper_le_lower ha.pos k hb.lt
  have hupper : x = (ofBits a).upper :=
    le_antisymm hxa.le_upper (hle.trans hxb.lower_le)
  have hlower : x = (ofBits (a + 1 + k)).lower :=
    le_antisymm (hxa.le_upper.trans hle) hxb.lower_le
  obtain rfl := hmeet (hupper.symm.trans hlower)
  -- the common end would belong to both neighbours, and one of them is odd
  have heven := (closed_iff ha.lt).mp (hxa.closed (.inr hupper))
  have hnext := (closed_iff hb.lt).mp (hxb.closed (.inl hlower))
  omega

/-- No number rounds to two doubles. -/
theorem Contains.unique {a b : Nat} (ha : Finite a) (hb : Finite b)
    (hxa : (ofBits a).Contains x) (hxb : (ofBits b).Contains x) : a = b := by
  rcases Nat.lt_trichotomy a b with hlt | heq | hlt
  · exact absurd hlt (hxa.not_lt ha hb hxb)
  · exact heq
  · exact absurd hlt (hxb.not_lt hb ha hxa)

/-! ## The shortest numeral of a double -/

theorem scale_le {bits : Nat} (h : bits < 0x7FF0000000000000) : Decimal.scale bits ≤ 2046 := by
  have hbiased := biasedExponent_eq h
  by_cases hzero : biasedExponent bits = 0
  · rw [scale_of_zero hzero]
    omega
  · rw [scale_of_ne_zero hzero]
    omega

theorem Finite.ten_zpow_le {bits : Nat} (h : Finite bits) :
    (10 : ℚ) ^ ((ofBits bits).magnitude - 1) ≤ (ofBits bits).middle := by
  have hscale := scale_le h.lt
  have hm := mantissa_lt bits
  have hvalue : (ofBits bits).value =
      4 * mantissa bits * 2 ^ ((Decimal.scale bits : Int) - 1077).toNat := rfl
  have hdenominator : (ofBits bits).denominator =
      2 ^ (-((Decimal.scale bits : Int) - 1077)).toNat := rfl
  have hpos : 0 < (ofBits bits).value := by
    rw [hvalue]
    exact Nat.mul_pos (Nat.mul_pos (by norm_num) h.mantissa_pos) (Nat.pow_pos (by norm_num))
  refine ten_zpow_le_magnitude denominator_pos hpos ?_ ?_
  · have hlt : (ofBits bits).value < 2 ^ (55 + ((Decimal.scale bits : Int) - 1077).toNat) := by
      rw [hvalue, Nat.pow_add]
      exact Nat.mul_lt_mul_of_pos_right (by omega) (Nat.pow_pos (by norm_num))
    have hlog := (Nat.log2_lt hpos.ne').mpr hlt
    omega
  · rw [hdenominator, Nat.log2_two_pow]
    omega

/-- The shortest numeral of a double rounds to it. -/
theorem Finite.contains_shortest {bits : Nat} (h : Finite bits) :
    (ofBits bits).Contains (ofBits bits).shortest.value :=
  Target.contains_shortest denominator_pos h.lower_lt h.lt_upper h.ten_zpow_le h.wide

/-- The shortest numerals of two doubles have different values. -/
theorem Finite.eq_of_shortest {a b : Nat} (ha : Finite a) (hb : Finite b)
    (h : (ofBits a).shortest.value = (ofBits b).shortest.value) : a = b :=
  Contains.unique ha hb ha.contains_shortest (h ▸ hb.contains_shortest)

/-- The shortest numeral of a double that is not zero is not zero. -/
theorem Finite.shortest_pos {bits : Nat} (h : Finite bits) : 0 < (ofBits bits).shortest.value := by
  have hpos := h.mantissa_pos
  have hreach : reach bits < 4 * mantissa bits := by
    rcases reach_cases bits with hr | ⟨hr, -⟩ <;> omega
  refine lt_of_lt_of_le ?_ h.contains_shortest.lower_le
  rw [lower_ofBits]
  exact mul_pos (by exact_mod_cast Nat.sub_pos_of_lt hreach) (quarter_pos bits)

end Target
end Decimal
end ScriptEngine
