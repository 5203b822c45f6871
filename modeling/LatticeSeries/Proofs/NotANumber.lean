import LatticeSeries.Ieee.Number
import Mathlib.Tactic.SplitIfs

/-!
# Where NaN comes from

Rounding makes no NaN, so a result is one exactly if the exact operation on the data
has none to give: an operand is a NaN already, infinities of different sign are
added, or an infinity is multiplied by zero.
-/
namespace LatticeSeries.Ieee

-- Powers of numbers are those of core.
attribute [local instance (2000)] instPowNat

namespace Format

variable (f : Format)

theorem signBit_eq : f.signBit = 2 ^ f.exponentBits * 2 ^ f.fractionBits := Nat.pow_add ..

theorem infinity_add_lt_signBit {n : Nat} (h : n < 2 ^ f.fractionBits) :
    f.infinity + n < f.signBit := by
  have hpos : 0 < 2 ^ f.exponentBits := Nat.two_pow_pos _
  have hlast : (2 ^ f.exponentBits - 1) * 2 ^ f.fractionBits + 2 ^ f.fractionBits =
      2 ^ f.exponentBits * 2 ^ f.fractionBits := by
    rw [← Nat.succ_mul, Nat.succ_eq_add_one, Nat.sub_add_cancel hpos]
  rw [infinity, signBit_eq]
  omega

theorem roundMagnitude_le (mantissa : Nat) (exponent : Int) :
    f.roundMagnitude mantissa exponent ≤ f.infinity := by
  unfold roundMagnitude
  split_ifs
  · exact Nat.zero_le _
  · exact Nat.min_le_left _ _

theorem unpack_eq_nan_iff (word : Nat) : f.unpack word = .nan ↔ f.infinity < word % f.signBit := by
  unfold unpack
  dsimp only
  split_ifs <;> simp_all

theorem toNat_mul_signBit_add_mod (negative : Bool) {magnitude : Nat} (h : magnitude < f.signBit) :
    (negative.toNat * f.signBit + magnitude) % f.signBit = magnitude := by
  rw [Nat.add_comm, Nat.add_mul_mod_self_right, Nat.mod_eq_of_lt h]

/-- Only the datum that is no number is rounded to a magnitude above infinity. -/
theorem infinity_lt_round_mod_iff (h : 0 < f.fractionBits) (d : Datum) :
    f.infinity < f.round d % f.signBit ↔ d = .nan := by
  have hquiet : 2 ^ (f.fractionBits - 1) < 2 ^ f.fractionBits :=
    Nat.pow_lt_pow_right (Nat.lt_succ_self 1) (Nat.sub_one_lt_of_lt h)
  have hinfinity : f.infinity < f.signBit := f.infinity_add_lt_signBit (Nat.two_pow_pos _)
  cases d with
  | nan =>
    rw [round, Nat.mod_eq_of_lt (f.infinity_add_lt_signBit hquiet)]
    have hpos : 0 < 2 ^ (f.fractionBits - 1) := Nat.two_pow_pos _
    simp [hpos]
  | infinite negative =>
    rw [round, f.toNat_mul_signBit_add_mod negative hinfinity]
    simp
  | finite negative mantissa exponent =>
    have hle := f.roundMagnitude_le mantissa exponent
    rw [round, f.toNat_mul_signBit_add_mod negative (Nat.lt_of_le_of_lt hle hinfinity)]
    simp [hle]

/-- A word of 32 bits is far below the infinity of the 64-bit format, and none but zero
is rounded to zero. -/
theorem roundMagnitude_double_word {n : Nat} (hpos : 0 < n) (hn : n < UInt32.size) :
    0 < double.roundMagnitude n 0 ∧ double.roundMagnitude n 0 < double.infinity := by
  have hne : n ≠ 0 := Nat.ne_of_gt hpos
  have hlog : n.log2 < 32 := (Nat.log2_lt hne).mpr hn
  have hleast : double.leastExponent = -1074 := by decide
  have hfraction : double.fractionBits = 52 := rfl
  have hplace : max double.leastExponent (0 + (n.log2 : Int) - double.fractionBits) =
      (n.log2 : Int) - 52 := by omega
  have hshift : (0 - ((n.log2 : Int) - 52)).toNat = 52 - n.log2 := by omega
  have hexponent : ((n.log2 : Int) - 52 - double.leastExponent).toNat = n.log2 + 1022 := by omega
  have hkept : n * 2 ^ (52 - n.log2) < 2 * 2 ^ 52 := by
    calc n * 2 ^ (52 - n.log2) < 2 ^ (n.log2 + 1) * 2 ^ (52 - n.log2) :=
          Nat.mul_lt_mul_of_pos_right Nat.lt_log2_self (Nat.two_pow_pos _)
      _ = 2 * 2 ^ 52 := by
          rw [← Nat.pow_add, show n.log2 + 1 + (52 - n.log2) = 52 + 1 by omega, Nat.pow_succ,
            Nat.mul_comm]
  have hnonzero : 0 < n * 2 ^ (52 - n.log2) := Nat.mul_pos hpos (Nat.two_pow_pos _)
  have hfield : (n.log2 + 1022) * 2 ^ 52 ≤ 1053 * 2 ^ 52 := Nat.mul_le_mul_right _ (by omega)
  have hinfinity : double.infinity = 2047 * 2 ^ 52 := rfl
  have hround : double.roundMagnitude n 0 = min (2047 * 2 ^ 52)
      ((n.log2 + 1022) * 2 ^ 52 + n * 2 ^ (52 - n.log2)) := by
    unfold roundMagnitude
    rw [if_neg hne]
    dsimp only
    rw [hplace, if_pos (by omega), hshift, hexponent, Nat.shiftLeft_eq, Nat.shiftLeft_eq,
      hfraction, hinfinity]
  have hbounds : ∀ {unit field kept : Nat}, field ≤ 1053 * unit → kept < 2 * unit → 0 < kept →
      0 < min (2047 * unit) (field + kept) ∧ min (2047 * unit) (field + kept) < 2047 * unit := by
    omega
  rw [hround, hinfinity]
  exact hbounds hfield hkept hnonzero

/-- A word below infinity is finite, and a zero only if it is the word of zero. -/
theorem unpack_of_lt_infinity {word : Nat} (h : word < f.infinity) :
    ∃ mantissa exponent, f.unpack word = .finite false mantissa exponent ∧
      (mantissa = 0 ↔ word = 0) := by
  have hlt : word < f.signBit :=
    Nat.lt_trans h (f.infinity_add_lt_signBit (n := 0) (Nat.two_pow_pos _))
  have hnegative : decide (f.signBit ≤ word) = false := decide_eq_false (Nat.not_le.mpr hlt)
  unfold unpack
  dsimp only
  rw [Nat.mod_eq_of_lt hlt, if_neg (Nat.lt_asymm h), if_neg (Nat.ne_of_lt h), hnegative]
  split_ifs with hexponent
  · have hfraction : word < 2 ^ f.fractionBits :=
      (Nat.div_eq_zero_iff_lt (Nat.two_pow_pos _)).mp hexponent
    exact ⟨_, _, rfl, by rw [Nat.mod_eq_of_lt hfraction]⟩
  · have hpos : 0 < 2 ^ f.fractionBits := Nat.two_pow_pos _
    have hword : word ≠ 0 := by
      rintro rfl
      exact hexponent (Nat.zero_div _)
    exact ⟨_, _, rfl, by omega⟩

end Format

namespace Datum

theorem add_eq_nan_iff {a b : Datum} :
    a.add b = .nan ↔ a = .nan ∨ b = .nan ∨
      ∃ negative, a = .infinite negative ∧ b = .infinite !negative := by
  cases a with
  | nan => simp [add]
  | infinite s =>
    cases b with
    | infinite t => cases s <;> cases t <;> simp [add]
    | _ => simp [add]
  | finite s m i => cases b <;> simp [add]

theorem mul_eq_nan_iff {a b : Datum} :
    a.mul b = .nan ↔ a = .nan ∨ b = .nan ∨
      (∃ s t i, a = .infinite s ∧ b = .finite t 0 i) ∨
      ∃ s t i, a = .finite t 0 i ∧ b = .infinite s := by
  cases a <;> cases b <;> simp [mul]

end Datum

namespace Number

variable {format target : Format}

theorem isNaN_iff (x : Number format) : x.isNaN ↔ x.datum = .nan := by
  rw [datum, Format.unpack_eq_nan_iff, isNaN, decide_eq_true_eq, magnitude]

theorem magnitude_ofNatBits (word : Nat) :
    (ofNatBits word : Number format).magnitude = word % format.signBit := by
  have hdvd : format.signBit ∣ 2 ^ format.width :=
    Nat.pow_dvd_pow 2 (by unfold Format.width; omega)
  rw [magnitude, ofNatBits, BitVec.toNat_ofNat, Nat.mod_mod_of_dvd _ hdvd]

theorem isNaN_ofDatum_iff (h : 0 < format.fractionBits) (d : Datum) :
    (ofDatum d : Number format).isNaN ↔ d = .nan := by
  rw [← format.infinity_lt_round_mod_iff h, isNaN, decide_eq_true_eq, ofDatum, magnitude_ofNatBits]

theorem isNaN_convert (h : 0 < target.fractionBits) (x : Number format) :
    (x.convert : Number target).isNaN = x.isNaN := by
  rw [Bool.eq_iff_iff, convert, isNaN_ofDatum_iff h, isNaN_iff]

/-- Infinities of different sign, which have no sum. -/
def Clash (x y : Number format) : Prop :=
  ∃ negative, x.datum = .infinite negative ∧ y.datum = .infinite !negative

theorem isNaN_add_iff (h : 0 < format.fractionBits) (x y : Number format) :
    (x + y).isNaN ↔ x.isNaN ∨ y.isNaN ∨ x.Clash y := by
  change (ofDatum (x.datum.add y.datum) : Number format).isNaN ↔ _
  rw [isNaN_ofDatum_iff h, Datum.add_eq_nan_iff, isNaN_iff, isNaN_iff]
  rfl

theorem isNaN_mul_iff (h : 0 < format.fractionBits) (x y : Number format) :
    (x * y).isNaN ↔ x.isNaN ∨ y.isNaN ∨
      (∃ s t i, x.datum = .infinite s ∧ y.datum = .finite t 0 i) ∨
      ∃ s t i, x.datum = .finite t 0 i ∧ y.datum = .infinite s := by
  change (ofDatum (x.datum.mul y.datum) : Number format).isNaN ↔ _
  rw [isNaN_ofDatum_iff h, Datum.mul_eq_nan_iff, isNaN_iff, isNaN_iff]

/-- Whole numbers are finite as long as they fit 32 bits, and only zero is zero. -/
theorem datum_ofNat_word {n : Nat} (hn : n < UInt32.size) :
    ∃ mantissa exponent, (ofNat n : Double).datum = .finite false mantissa exponent ∧
      (mantissa = 0 ↔ n = 0) := by
  have hround : Format.double.round (.finite false n 0) = Format.double.roundMagnitude n 0 := by
    rw [Format.round, Bool.toNat_false, Nat.zero_mul, Nat.zero_add]
  have hmagnitude : Format.double.roundMagnitude n 0 < Format.double.infinity ∧
      (Format.double.roundMagnitude n 0 = 0 ↔ n = 0) := by
    rcases Nat.eq_zero_or_pos n with rfl | hpos
    · decide
    · obtain ⟨hnonzero, hlt⟩ := Format.roundMagnitude_double_word hpos hn
      exact ⟨hlt, by omega⟩
  have hword : Format.double.roundMagnitude n 0 < 2 ^ Format.double.width :=
    Nat.lt_trans hmagnitude.1 (by decide)
  obtain ⟨mantissa, exponent, hunpack, hzero⟩ :=
    Format.double.unpack_of_lt_infinity hmagnitude.1
  refine ⟨mantissa, exponent, ?_, hzero.trans hmagnitude.2⟩
  rw [datum, ofNat, ofDatum, ofNatBits, BitVec.toNat_ofNat, hround, Nat.mod_eq_of_lt hword, hunpack]

end Number

end LatticeSeries.Ieee
