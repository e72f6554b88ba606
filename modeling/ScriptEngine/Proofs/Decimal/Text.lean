/-
The text of a double tells the double.

A layout with a point shows the value of its numeral, whatever zeros it leaves out or puts in
(`value_of_positional`), and shortest numerals of different doubles have different values.  The
sign and the words for what is not finite are told apart from a layout by their first character.
-/
import ScriptEngine.Proofs.Decimal.Rounding
import ScriptEngine.Proofs.Registry.Demangling

namespace ScriptEngine
namespace Decimal

open Float.Model Float.Model.UnpackedFloat

/-! ## Zeros around digits -/

theorem ofDigits_zeros (ds : List Char) (k : Nat) :
    ofDigits (ds ++ List.replicate k '0') = ofDigits ds * 10 ^ k := by
  induction k with
  | zero => simp
  | succ k ih =>
    rw [List.replicate_succ', ← List.append_assoc, ofDigits, List.foldl_append, List.foldl_cons,
      List.foldl_nil]
    show 10 * ofDigits (ds ++ List.replicate k '0') + 0 = _
    rw [ih, Nat.pow_succ]
    ring

/-- The number that digits before and behind a point name. -/
def pointed (whole fraction : List Char) : ℚ := ofDigits (whole ++ fraction) / 10 ^ fraction.length

/-- Zeros behind the last digit do not count. -/
theorem pointed_zeros (whole fraction : List Char) (k : Nat) :
    pointed whole (fraction ++ List.replicate k '0') = pointed whole fraction := by
  unfold pointed
  rw [← List.append_assoc, ofDigits_zeros, List.length_append, List.length_replicate, pow_add]
  push_cast
  exact mul_div_mul_right _ _ (by positivity)

theorem exists_zeros (ds : List Char) :
    ∃ k, ds = (ds.reverse.dropWhile (· = '0')).reverse ++ List.replicate k '0' := by
  refine ⟨(ds.reverse.takeWhile (· = '0')).length, ?_⟩
  have hzeros : ds.reverse.takeWhile (· = '0') =
      List.replicate (ds.reverse.takeWhile (· = '0')).length '0' := by
    refine List.eq_replicate_iff.mpr ⟨rfl, fun c hc => ?_⟩
    exact of_decide_eq_true (mem_takeWhile (p := fun c => c = '0') c hc)
  calc ds = (ds.reverse.takeWhile (· = '0') ++ ds.reverse.dropWhile (· = '0')).reverse := by
        rw [List.takeWhile_append_dropWhile, List.reverse_reverse]
    _ = _ := by
      rw [List.reverse_append]
      conv_lhs => rw [hzeros, List.reverse_replicate]

/-! ## The parts of a layout -/

namespace Numeral

/-- The digits of a numeral, with zeros before them so that one stands before the point. -/
def padded (n : Numeral) : List Char :=
  FunctionKey.paddedDigits ((-n.scale).toNat + 1 - (toString n.digits).length) n.digits

theorem length_padded (n : Numeral) : (-n.scale).toNat < n.padded.length := by
  have hlength : (FunctionKey.digitsOf n.digits).length = (toString n.digits).length :=
    String.length_toList
  rw [padded, FunctionKey.paddedDigits, List.length_append, List.length_replicate, hlength]
  omega

/-- A numeral without places has its digits and zeros before the point. -/
theorem parts_whole {n : Numeral} (h : 0 ≤ n.scale) :
    n.parts.1.toList = FunctionKey.digitsOf n.digits ++ List.replicate n.scale.toNat '0' ∧
      n.parts.2 = "" := by
  unfold parts
  rw [if_pos h]
  refine ⟨?_, rfl⟩
  rw [String.toList_append, toList_pushn]
  rfl

/-- A numeral with places has its digits on both sides of the point, and no zeros at the end. -/
theorem parts_pointed {n : Numeral} (h : n.scale < 0) : ∃ k,
    n.padded = n.parts.1.toList ++ (n.parts.2.toList ++ List.replicate k '0') ∧
      n.parts.1.toList ≠ [] ∧ (n.parts.2.toList ++ List.replicate k '0').length = (-n.scale).toNat := by
  have hlength := n.length_padded
  have hpadded : ("".pushn '0' ((-n.scale).toNat + 1 - (toString n.digits).length) ++
      toString n.digits).toList = n.padded := by
    rw [String.toList_append, toList_pushn]
    rfl
  obtain ⟨k, hk⟩ := exists_zeros (n.padded.drop (n.padded.length - (-n.scale).toNat))
  have hfraction : n.parts.2.toList ++ List.replicate k '0' =
      n.padded.drop (n.padded.length - (-n.scale).toNat) := by
    unfold parts
    rw [if_neg (not_le.mpr h)]
    dsimp only
    rw [hpadded, String.toList_ofList]
    exact hk.symm
  have hwhole : n.parts.1.toList = n.padded.take (n.padded.length - (-n.scale).toNat) := by
    unfold parts
    rw [if_neg (not_le.mpr h)]
    dsimp only
    rw [hpadded, String.toList_ofList]
  refine ⟨k, ?_, ?_, ?_⟩
  · rw [hfraction, hwhole, List.take_append_drop]
  · rw [hwhole, ← List.length_pos_iff, List.length_take]
    omega
  · rw [hfraction, List.length_drop]
    omega

/-- The parts of a layout show the value of the numeral. -/
theorem value_of_parts (n : Numeral) : pointed n.parts.1.toList n.parts.2.toList = n.value := by
  rcases le_or_gt 0 n.scale with h | h
  · obtain ⟨hwhole, hfraction⟩ := parts_whole h
    rw [hwhole, hfraction, pointed, String.toList_empty, List.append_nil, ofDigits_zeros,
      FunctionKey.ofDigits_digitsOf, List.length_nil, pow_zero, div_one, Numeral.value]
    obtain ⟨k, hk⟩ := Int.eq_ofNat_of_zero_le h
    rw [hk, Int.toNat_natCast, zpow_natCast]
    push_cast
    rfl
  · obtain ⟨k, hpadded, -, hlength⟩ := parts_pointed h
    rw [← pointed_zeros _ _ k, pointed, ← hpadded, hlength, padded, FunctionKey.ofDigits_paddedDigits,
      Numeral.value, zpow_eq_div]
    have hpos : n.scale.toNat = 0 := by omega
    rw [hpos, pow_zero, mul_one_div]

theorem isDigit_of_mem_parts (n : Numeral) :
    (∀ c ∈ n.parts.1.toList, isDigit c = true) ∧ ∀ c ∈ n.parts.2.toList, isDigit c = true := by
  rcases le_or_gt 0 n.scale with h | h
  · obtain ⟨hwhole, hfraction⟩ := parts_whole h
    rw [hwhole, hfraction]
    refine ⟨fun c hc => ?_, nofun⟩
    rcases List.mem_append.mp hc with hc | hc
    · exact FunctionKey.isDigit_of_mem_digitsOf c hc
    · rw [List.eq_of_mem_replicate hc]
      rfl
  · obtain ⟨k, hpadded, -⟩ := parts_pointed h
    have hdigits : ∀ c ∈ n.padded, isDigit c = true := FunctionKey.isDigit_of_mem_paddedDigits
    rw [hpadded] at hdigits
    exact ⟨fun c hc => hdigits c (List.mem_append_left _ hc), fun c hc =>
      hdigits c (List.mem_append_right _ (List.mem_append_left _ hc))⟩

theorem whole_ne_nil (n : Numeral) : n.parts.1.toList ≠ [] := by
  rcases le_or_gt 0 n.scale with h | h
  · rw [(parts_whole h).1]
    exact List.append_ne_nil_of_left_ne_nil (FunctionKey.digitsOf_ne_nil _) _
  · obtain ⟨k, -, hwhole, -⟩ := parts_pointed h
    exact hwhole

/-- What stands behind the digits before the point. -/
def behind (n : Numeral) : List Char :=
  if n.parts.2.toList = [] then [] else '.' :: n.parts.2.toList

theorem positional_toList (n : Numeral) :
    n.positional.toList = n.parts.1.toList ++ n.behind := by
  unfold positional behind
  dsimp only
  by_cases h : n.parts.2.toList = []
  · have hempty : n.parts.2 = "" := String.toList_eq_nil_iff.mp h
    rw [if_pos h, hempty, if_pos (String.isEmpty_iff.mpr rfl), List.append_nil]
  · have hempty : ¬n.parts.2.isEmpty = true := fun hempty =>
      h (String.toList_eq_nil_iff.mpr (String.isEmpty_iff.mp hempty))
    rw [if_neg h, if_neg hempty, String.toList_append, String.toList_append, List.append_assoc]
    rfl

theorem fraction_eq_drop (n : Numeral) : n.parts.2.toList = n.behind.drop 1 := by
  unfold behind
  split
  · assumption
  · rfl

/-- Numerals with one layout have one value. -/
theorem value_of_positional {n m : Numeral} (h : n.positional = m.positional) :
    n.value = m.value := by
  have hstop : ∀ k : Numeral, ∀ c, k.behind.head? = some c → isDigit c = false := by
    intro k c hc
    unfold behind at hc
    split at hc
    · cases hc
    · cases hc
      rfl
  have hlist := congrArg String.toList h
  rw [positional_toList, positional_toList] at hlist
  obtain ⟨hwhole, hbehind⟩ := run_unique (isDigit_of_mem_parts n).1 (isDigit_of_mem_parts m).1
    (hstop n) (hstop m) hlist
  rw [← value_of_parts, ← value_of_parts, hwhole, fraction_eq_drop, hbehind, ← fraction_eq_drop]

/-- A layout begins with a digit. -/
theorem head_positional (n : Numeral) :
    ∃ c, n.positional.toList.head? = some c ∧ isDigit c = true := by
  obtain ⟨c, cs, hcs⟩ := List.exists_cons_of_ne_nil n.whole_ne_nil
  refine ⟨c, ?_, (isDigit_of_mem_parts n).1 c ?_⟩
  · rw [positional_toList, hcs]
    rfl
  · rw [hcs]
    exact List.mem_cons_self

theorem newline_notMem_positional (n : Numeral) : '\n' ∉ n.positional.toList := by
  have hdigits := isDigit_of_mem_parts n
  rw [positional_toList, List.mem_append]
  rintro (hmem | hmem)
  · cases hdigits.1 _ hmem
  · unfold behind at hmem
    split at hmem
    · cases hmem
    · rcases List.mem_cons.mp hmem with hpoint | hmem
      · cases hpoint
      · cases hdigits.2 _ hmem

end Numeral

/-! ## The text -/

/-- The numeral that a finite double is written with. -/
def numeralOf (size : Nat) : Numeral :=
  if size = 0 then ⟨0, 0⟩ else (Target.ofBits size).shortest

/-- The text of a double without its sign. -/
def unsignedText (size : Nat) : String :=
  if size = 0x7FF0000000000000 then "inf" else (numeralOf size).positional

def signText (bits : Nat) : String := if bits < 2 ^ 63 then "" else "-"

theorem text_number {x : Float} (h : x.toBits.toNat % 2 ^ 63 ≤ 0x7FF0000000000000) :
    text x = signText x.toBits.toNat ++ unsignedText (x.toBits.toNat % 2 ^ 63) := by
  unfold text render unsignedText numeralOf signText
  simp only [Nat.pow_eq]
  rw [if_neg (not_lt.mpr h)]
  by_cases hinfinite : x.toBits.toNat % 2 ^ 63 = 0x7FF0000000000000
  · rw [if_pos hinfinite, if_pos hinfinite]
  · rw [if_neg hinfinite, if_neg hinfinite]
    by_cases hzero : x.toBits.toNat % 2 ^ 63 = 0
    · rw [if_pos hzero, if_pos hzero]
    · rw [if_neg hzero, if_neg hzero]

theorem text_noNumber {x : Float} (h : 0x7FF0000000000000 < x.toBits.toNat % 2 ^ 63) :
    text x = "NaN" := if_pos h

/-- A text without a sign begins with a digit or a letter of its own. -/
theorem head_unsignedText (size : Nat) :
    ∃ c, (unsignedText size).toList.head? = some c ∧ c ≠ '-' ∧ c ≠ 'N' := by
  unfold unsignedText
  split
  · exact ⟨'i', rfl, by decide, by decide⟩
  · obtain ⟨c, hhead, hdigit⟩ := (numeralOf size).head_positional
    refine ⟨c, hhead, ?_, ?_⟩ <;>
    · rintro rfl
      cases hdigit

theorem value_numeralOf_pos {size : Nat} (h : Target.Finite size) : 0 < (numeralOf size).value := by
  rw [numeralOf, if_neg h.pos.ne']
  exact h.shortest_pos

theorem unsignedText_injective {a b : Nat} (ha : a ≤ 0x7FF0000000000000)
    (hb : b ≤ 0x7FF0000000000000) (h : unsignedText a = unsignedText b) : a = b := by
  have letter : ∀ n : Numeral, "inf" ≠ n.positional := by
    intro n heq
    obtain ⟨c, hhead, hdigit⟩ := n.head_positional
    rw [← heq] at hhead
    cases hhead
    cases hdigit
  unfold unsignedText at h
  split at h <;> split at h
  · next ha' hb' => exact ha'.trans hb'.symm
  · exact absurd h (letter _)
  · exact absurd h.symm (letter _)
  · next ha' hb' =>
    have hvalue := Numeral.value_of_positional h
    have hzero : (numeralOf 0).value = 0 := by simp [numeralOf, Numeral.value]
    rcases Nat.eq_zero_or_pos a with rfl | hapos <;> rcases Nat.eq_zero_or_pos b with rfl | hbpos
    · rfl
    · have hpos := value_numeralOf_pos ⟨hbpos, lt_of_le_of_ne hb hb'⟩
      exact absurd (hzero.symm.trans hvalue) hpos.ne
    · have hpos := value_numeralOf_pos ⟨hapos, lt_of_le_of_ne ha ha'⟩
      exact absurd (hvalue.trans hzero) hpos.ne'
    · rw [numeralOf, numeralOf, if_neg hapos.ne', if_neg hbpos.ne'] at hvalue
      exact Target.Finite.eq_of_shortest ⟨hapos, lt_of_le_of_ne ha ha'⟩
        ⟨hbpos, lt_of_le_of_ne hb hb'⟩ hvalue

theorem eq_of_toBits {x y : Float} (h : x.toBits.toNat = y.toBits.toNat) : x = y :=
  eq_of_bits (BitVec.eq_of_toNat_eq h)

theorem signText_of_lt {bits : Nat} (h : bits < 2 ^ 63) : signText bits = "" := if_pos h

theorem signText_of_ge {bits : Nat} (h : 2 ^ 63 ≤ bits) : signText bits = "-" :=
  if_neg (not_lt.mpr h)

theorem minus_ne_unsigned (s : String) (size : Nat) : "-" ++ s ≠ unsignedText size := by
  intro heq
  obtain ⟨c, hhead, hminus, -⟩ := head_unsignedText size
  rw [← heq, String.toList_append] at hhead
  exact hminus (Option.some.inj hhead).symm

theorem ne_noNumber (bits size : Nat) : signText bits ++ unsignedText size ≠ "NaN" := by
  intro heq
  rcases Nat.lt_or_ge bits (2 ^ 63) with h | h
  · obtain ⟨c, hhead, -, hletter⟩ := head_unsignedText size
    rw [signText_of_lt h, String.empty_append] at heq
    rw [heq] at hhead
    exact hletter (Option.some.inj hhead).symm
  · rw [signText_of_ge h] at heq
    have hhead := congrArg (fun s => s.toList.head?) heq
    rw [String.toList_append] at hhead
    cases hhead

/-- The texts of different numbers differ. -/
theorem bits_of_text {a b : Nat} (ha : a < 2 ^ 64) (hb : b < 2 ^ 64)
    (hsizea : a % 2 ^ 63 ≤ 0x7FF0000000000000) (hsizeb : b % 2 ^ 63 ≤ 0x7FF0000000000000)
    (h : signText a ++ unsignedText (a % 2 ^ 63) = signText b ++ unsignedText (b % 2 ^ 63)) :
    a = b := by
  rcases Nat.lt_or_ge a (2 ^ 63) with hsa | hsa <;> rcases Nat.lt_or_ge b (2 ^ 63) with hsb | hsb
  · rw [signText_of_lt hsa, signText_of_lt hsb, String.append_right_inj] at h
    have hsize := unsignedText_injective hsizea hsizeb h
    omega
  · rw [signText_of_lt hsa, signText_of_ge hsb, String.empty_append] at h
    exact absurd h.symm (minus_ne_unsigned _ _)
  · rw [signText_of_ge hsa, signText_of_lt hsb, String.empty_append] at h
    exact absurd h (minus_ne_unsigned _ _)
  · rw [signText_of_ge hsa, signText_of_ge hsb, String.append_right_inj] at h
    have hsize := unsignedText_injective hsizea hsizeb h
    omega

theorem isNaN_of_parts {b : BitVec Format.binary64.numBits} (hexponent : unpackExponent b = -1#11)
    (hmantissa : unpackMantissa b ≠ 0#52) : (UnpackedFloat.unpack .binary64 b).isNaN = true := by
  unfold UnpackedFloat.unpack
  dsimp only
  rw [if_pos hexponent, if_neg hmantissa]
  rfl

/-- Beyond the bits of an infinity there is no number. -/
theorem isNaN_of_size {x : Float} (h : 0x7FF0000000000000 < x.toBits.toNat % 2 ^ 63) :
    x.isNaN = true := by
  have hlt : x.toBits.toNat < 2 ^ 64 := x.toBits.toNat_lt
  refine isNaN_of_parts (b := x.toModel.toBits.toBitVec) ?_ ?_
  · rw [← BitVec.toNat_inj, toNat_unpackExponent]
    show x.toBits.toNat / 2 ^ 52 % 2 ^ 11 = 2047
    omega
  · rw [ne_eq, ← BitVec.toNat_inj, toNat_unpackMantissa]
    show x.toBits.toNat % 2 ^ 52 ≠ 0
    omega

theorem newline_notMem_text (x : Float) : '\n' ∉ (text x).toList := by
  rcases Nat.lt_or_ge 0x7FF0000000000000 (x.toBits.toNat % 2 ^ 63) with h | h
  · rw [text_noNumber h]
    decide
  · rw [text_number h, String.toList_append, List.mem_append]
    rintro (hmem | hmem)
    · unfold signText at hmem
      split at hmem
      · cases hmem
      · revert hmem
        decide
    · unfold unsignedText at hmem
      split at hmem
      · revert hmem
        decide
      · exact Numeral.newline_notMem_positional _ hmem

/-- Different doubles have different texts. -/
theorem text_injective : Function.Injective text := by
  intro x y h
  rcases Nat.lt_or_ge 0x7FF0000000000000 (x.toBits.toNat % 2 ^ 63) with hx | hx <;>
    rcases Nat.lt_or_ge 0x7FF0000000000000 (y.toBits.toNat % 2 ^ 63) with hy | hy
  · exact eq_of_isNaN (isNaN_of_size hx) (isNaN_of_size hy)
  · rw [text_noNumber hx, text_number hy] at h
    exact absurd h.symm (ne_noNumber _ _)
  · rw [text_number hx, text_noNumber hy] at h
    exact absurd h (ne_noNumber _ _)
  · rw [text_number hx, text_number hy] at h
    exact eq_of_toBits (bits_of_text x.toBits.toNat_lt y.toBits.toNat_lt hx hy h)

end Decimal
end ScriptEngine
